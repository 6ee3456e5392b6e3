import MgRaffle.Library.LittleEndian
import MgRaffle.Library.Mixing

namespace MgRaffle.Utils
open LittleEndian Mixing

/-- The order in which a host lays the bytes of an integer in memory. -/
inductive ByteOrder
  | little
  | big
  deriving Repr, DecidableEq

/-- The integer that a host reads from four bytes in memory. -/
def ByteOrder.read (host : ByteOrder) (bytes : List UInt8) : BitVec 32 :=
  match host with
  | .little => BitVec.ofNat 32 (toNat32 bytes)
  | .big => BitVec.ofNat 32 (toNat32 (bytes.take 4).reverse)

/-- `union little`, by its bytes in memory; its member `c` is the first one. -/
abbrev Little := List UInt8

def Little.c (l : Little) : UInt8 := l.getD 0 0

/-- `static little l = {1};` sets the first member, and that is `c` on every host. -/
def staticLittle : Little := [1, 0, 0, 0]

def isLittle : Bool := staticLittle.c == 1

/-- The bytes put together by shifts, as `DecodeFixed32` does it where the host is not little. -/
def decodeShifted (c : List UInt8) : BitVec 32 :=
  (c.getD 0 0).toBitVec.setWidth 32 ||| (c.getD 1 0).toBitVec.setWidth 32 <<< 8 |||
    (c.getD 2 0).toBitVec.setWidth 32 <<< 16 ||| (c.getD 3 0).toBitVec.setWidth 32 <<< 24

def decodeFixed32 (host : ByteOrder) (c : List UInt8) : BitVec 32 :=
  if isLittle then host.read c else decodeShifted c

/-- `m` of `murmur_hash`. -/
def m : BitVec 32 := 0xc6a4a793

/-- `h *= m; h ^= (h >> r);` -/
def mix (r : ℕ) (h : BitVec 32) : BitVec 32 := xorShift r (h * m)

/-- `static_cast<unsigned char>(c) << k`, as it is added to `h`. -/
def shifted (c : UInt8) (k : ℕ) : BitVec 32 := BitVec.ofNat 32 (c.toNat * 2 ^ k)

/-- `while (data + 4 <= limit)`, and the `switch` over the bytes that remain. -/
def murmurLoop (host : ByteOrder) : BitVec 32 → List UInt8 → BitVec 32
  | h, c0 :: c1 :: c2 :: c3 :: data =>
    murmurLoop host (mix 16 (h + decodeFixed32 host [c0, c1, c2, c3])) data
  | h, [c0, c1, c2] => mix 24 (h + shifted c2 16 + shifted c1 8 + shifted c0 0)
  | h, [c0, c1] => mix 24 (h + shifted c1 8 + shifted c0 0)
  | h, [c0] => mix 24 (h + shifted c0 0)
  | h, [] => h

/-- The product `n * m` is one of `size_t`, and so is the `^`. -/
def murmurHash (host : ByteOrder) (data : List UInt8) (seed : BitVec 32) : BitVec 32 :=
  let n := BitVec.ofNat 64 data.length
  murmurLoop host ((seed.setWidth 64 ^^^ (n * m.setWidth 64)).setWidth 32) data

variable {host : ByteOrder} {h : BitVec 32} {x y data : List UInt8}

theorem mix_injective {r : ℕ} (hr : 0 < r) : Function.Injective (mix r) :=
  round_injective (m := m) rfl hr

theorem eq_of_mix_add {r : ℕ} {w h' : BitVec 32} (hr : 0 < r)
    (heq : mix r (h + w) = mix r (h' + w)) : h = h' :=
  (BitVec.add_left_inj w).mp (mix_injective hr heq)

theorem eq_of_mix_add_left {r : ℕ} {w w' : BitVec 32} (hr : 0 < r)
    (heq : mix r (h + w) = mix r (h + w')) : w = w' :=
  (BitVec.add_right_inj h).mp (mix_injective hr heq)

theorem murmurLoop_of_le (hx : 4 ≤ x.length) :
    murmurLoop host h x =
      murmurLoop host (mix 16 (h + decodeFixed32 host (x.take 4))) (x.drop 4) := by
  match x, hx with
  | c0 :: c1 :: c2 :: c3 :: data, _ => rfl

/-- The bytes that remain are added as the little-endian number that they are. -/
theorem murmurLoop_of_lt (hne : x ≠ []) (hx : x.length < 4) :
    murmurLoop host h x = mix 24 (h + BitVec.ofNat 32 (toNat32 x)) := by
  have hadd : ∀ u v, BitVec.ofNat 32 (u + v) = BitVec.ofNat 32 u + BitVec.ofNat 32 v :=
    BitVec.ofNat_add
  match x, hne, hx with
  | [c0, c1, c2], _, _ =>
    have hval : toNat32 [c0, c1, c2] =
        c2.toNat * 2 ^ 16 + (c1.toNat * 2 ^ 8 + c0.toNat * 2 ^ 0) := by
      change c0.toNat + 256 * c1.toNat + 65536 * c2.toNat + 16777216 * 0 = _
      ring
    rw [hval, hadd, hadd, ← BitVec.add_assoc, ← BitVec.add_assoc]
    rfl
  | [c0, c1], _, _ =>
    have hval : toNat32 [c0, c1] = c1.toNat * 2 ^ 8 + c0.toNat * 2 ^ 0 := by
      change c0.toNat + 256 * c1.toNat + 65536 * 0 + 16777216 * 0 = _
      ring
    rw [hval, hadd, ← BitVec.add_assoc]
    rfl
  | [c0], _, _ =>
    have hval : toNat32 [c0] = c0.toNat * 2 ^ 0 := by
      change c0.toNat + 256 * 0 + 65536 * 0 + 16777216 * 0 = _
      ring
    rw [hval]
    rfl

/-- The rest of the key keeps two hashes apart. -/
theorem eq_of_murmurLoop_eq {h' : BitVec 32}
    (heq : murmurLoop host h data = murmurLoop host h' data) : h = h' := by
  induction hlen : data.length using Nat.strongRecOn generalizing data h h' with
  | ind n ih =>
    by_cases hle : 4 ≤ data.length
    · -- from the end backwards: the last hashes are equal, so those before are
      rw [murmurLoop_of_le hle, murmurLoop_of_le hle] at heq
      have hshort : (data.drop 4).length < n := by
        rw [List.length_drop]
        omega
      exact eq_of_mix_add (by decide) (ih _ hshort heq rfl)
    · by_cases hne : data = []
      · subst hne
        exact heq
      · rw [murmurLoop_of_lt hne (not_le.mp hle), murmurLoop_of_lt hne (not_le.mp hle)] at heq
        exact eq_of_mix_add (by decide) heq

theorem ofNat_toNat32_inj {bs cs : List UInt8} (hlen : bs.length = cs.length)
    (hle : bs.length ≤ 4) (h : BitVec.ofNat 32 (toNat32 bs) = BitVec.ofNat 32 (toNat32 cs)) :
    bs = cs := by
  have hnat := congrArg BitVec.toNat h
  rw [BitVec.toNat_ofNat, BitVec.toNat_ofNat, Nat.mod_eq_of_lt (toNat32_lt bs),
    Nat.mod_eq_of_lt (toNat32_lt cs)] at hnat
  exact eq_of_toNat32_eq hlen hle hnat

theorem getElem?_drop_of_agree {k : ℕ} (hagree : ∀ i, i / 4 ≠ k → x[i]? = y[i]?) (i : ℕ)
    (hi : (4 + i) / 4 ≠ k) : (x.drop 4)[i]? = (y.drop 4)[i]? := by
  rw [List.getElem?_drop, List.getElem?_drop]
  exact hagree (4 + i) hi

/-- Two keys of one length that agree outside of the block `k` are known apart. -/
theorem eq_of_agree (k : ℕ) (hlen : x.length = y.length)
    (hagree : ∀ i, i / 4 ≠ k → x[i]? = y[i]?)
    (heq : murmurLoop .little h x = murmurLoop .little h y) : x = y := by
  induction k generalizing h x y with
  | zero =>
    by_cases hle : 4 ≤ x.length
    · -- the difference lies in the first block, and what follows it keeps it
      have hdrop : x.drop 4 = y.drop 4 :=
        List.ext_getElem? fun i => getElem?_drop_of_agree hagree i (by omega)
      have hley : 4 ≤ y.length := hlen ▸ hle
      rw [murmurLoop_of_le hle, murmurLoop_of_le hley, hdrop] at heq
      have hword := eq_of_mix_add_left (by decide) (eq_of_murmurLoop_eq heq)
      have htake : x.take 4 = y.take 4 := by
        refine ofNat_toNat32_inj ?_ ?_ hword
        · rw [List.length_take, List.length_take, hlen]
        · rw [List.length_take]
          omega
      rw [← List.take_append_drop 4 x, ← List.take_append_drop 4 y, htake, hdrop]
    · by_cases hne : x = []
      · subst hne
        exact (List.length_eq_zero_iff.mp hlen.symm).symm
      · have hney : y ≠ [] := by
          rintro rfl
          exact hne (List.length_eq_zero_iff.mp hlen)
        rw [murmurLoop_of_lt hne (by omega), murmurLoop_of_lt hney (by omega)] at heq
        exact ofNat_toNat32_inj hlen (by omega) (eq_of_mix_add_left (by decide) heq)
  | succ k ih =>
    -- the first block is the same in both: the loops go on from the same hash
    have hfirst : ∀ i < 4, x[i]? = y[i]? := fun i hi => hagree i (by omega)
    by_cases hle : 4 ≤ x.length
    · have htake : x.take 4 = y.take 4 := by
        refine List.ext_getElem? fun i => ?_
        rw [List.getElem?_take, List.getElem?_take]
        split
        · exact hfirst i ‹_›
        · rfl
      have hley : 4 ≤ y.length := hlen ▸ hle
      rw [murmurLoop_of_le hle, murmurLoop_of_le hley, htake] at heq
      have hdrop : x.drop 4 = y.drop 4 := by
        refine ih ?_ ?_ heq
        · rw [List.length_drop, List.length_drop, hlen]
        · intro i hi
          exact getElem?_drop_of_agree hagree i (by omega)
      rw [← List.take_append_drop 4 x, ← List.take_append_drop 4 y, htake, hdrop]
    · refine List.ext_getElem? fun i => ?_
      by_cases hi : i < 4
      · exact hfirst i hi
      · rw [List.getElem?_eq_none (by omega), List.getElem?_eq_none (by omega)]

/-- What `h` starts from. -/
theorem murmurHash_eq (host : ByteOrder) (data : List UInt8) (seed : BitVec 32) :
    murmurHash host data seed =
      murmurLoop host
        (seed ^^^ (BitVec.ofNat 64 data.length * m.setWidth 64).setWidth 32) data := by
  rw [murmurHash, BitVec.setWidth_xor, BitVec.setWidth_setWidth_of_le _ (by decide),
    BitVec.setWidth_eq]

/-- Keys that differ in one block only, or in the tail only, have different hashes, and so has one
key under two seeds. -/
theorem murmurHash_separates :
    (∀ (seed : BitVec 32) (x y : List UInt8) (k : ℕ), x.length = y.length →
      (∀ i, i / 4 ≠ k → x[i]? = y[i]?) → x ≠ y →
      murmurHash .little x seed ≠ murmurHash .little y seed) ∧
    ∀ (x : List UInt8) (seed seed' : BitVec 32), seed ≠ seed' →
      murmurHash .little x seed ≠ murmurHash .little x seed' := by
  constructor
  · intro seed x y k hlen hagree hne heq
    rw [murmurHash_eq, murmurHash_eq, hlen] at heq
    exact hne (eq_of_agree k hlen hagree heq)
  · intro x seed seed' hne heq
    rw [murmurHash_eq, murmurHash_eq] at heq
    exact hne ((BitVec.xor_left_inj _).mp (eq_of_murmurLoop_eq heq))

theorem murmurHash_separates_nine :
    murmurHash .little [1, 2, 3, 4, 5, 6, 7, 8, 9] 0 ≠
      murmurHash .little [1, 2, 3, 4, 5, 0, 7, 0, 9] 0 ∧
    murmurHash .little [1, 2, 3] 4 ≠ murmurHash .little [1, 2, 3] 5 := by
  refine ⟨murmurHash_separates.1 0 _ _ 1 rfl ?_ (by decide),
    murmurHash_separates.2 _ 4 5 (by decide)⟩
  intro i hi
  match i with
  | 0 | 1 | 2 | 3 | 8 => rfl
  | 4 | 5 | 6 | 7 => exact absurd rfl hi
  | i + 9 => rfl

section Host

/-- Every four bytes that the loop takes at a time. -/
def EachBlock (P : List UInt8 → Prop) : List UInt8 → Prop
  | c0 :: c1 :: c2 :: c3 :: data => P [c0, c1, c2, c3] ∧ EachBlock P data
  | _ => True

theorem EachBlock.mono {P Q : List UInt8 → Prop} :
    ∀ {data}, (∀ c : List UInt8, c.length = 4 → P c → Q c) → EachBlock P data → EachBlock Q data
  | _ :: _ :: _ :: _ :: _, hPQ, hP => ⟨hPQ _ rfl hP.1, EachBlock.mono hPQ hP.2⟩
  | [], _, _ | [_], _, _ | [_, _], _, _ | [_, _, _], _, _ => trivial

theorem or_shiftLeft {u k : ℕ} (hu : u < 2 ^ k) (v : ℕ) : u ||| v <<< k = u + v * 2 ^ k := by
  rw [Nat.or_comm, ← Nat.shiftLeft_add_eq_or_of_lt hu, Nat.shiftLeft_eq, add_comm]

/-- The branch that no host takes would be right on each of them. -/
theorem decodeShifted_eq (c : List UInt8) : decodeShifted c = BitVec.ofNat 32 (toNat32 c) := by
  have h0 := (c.getD 0 0).toNat_lt
  have h1 := (c.getD 1 0).toNat_lt
  have h2 := (c.getD 2 0).toNat_lt
  have h3 := (c.getD 3 0).toNat_lt
  have hshift : ∀ (b : UInt8) (k : ℕ), b.toNat * 2 ^ k < 2 ^ 32 →
      (b.toBitVec.setWidth 32 <<< k).toNat = b.toNat <<< k := by
    intro b k hb
    have hb32 : b.toNat % 2 ^ 32 = b.toNat := Nat.mod_eq_of_lt (b.toNat_lt.trans (by decide))
    rw [BitVec.toNat_shiftLeft, BitVec.toNat_setWidth, UInt8.toNat_toBitVec, hb32,
      Nat.shiftLeft_eq, Nat.mod_eq_of_lt hb]
  have hfirst : ((c.getD 0 0).toBitVec.setWidth 32).toNat = (c.getD 0 0).toNat := by
    rw [BitVec.toNat_setWidth, UInt8.toNat_toBitVec, Nat.mod_eq_of_lt (h0.trans (by decide))]
  have hsecond := or_shiftLeft h0 (c.getD 1 0).toNat
  have hthird := or_shiftLeft (k := 16)
    (by omega : (c.getD 0 0).toNat + (c.getD 1 0).toNat * 2 ^ 8 < 2 ^ 16) (c.getD 2 0).toNat
  have hfourth := or_shiftLeft (k := 24)
    (by omega : (c.getD 0 0).toNat + (c.getD 1 0).toNat * 2 ^ 8 +
      (c.getD 2 0).toNat * 2 ^ 16 < 2 ^ 24) (c.getD 3 0).toNat
  refine BitVec.eq_of_toNat_eq ?_
  rw [BitVec.toNat_ofNat, Nat.mod_eq_of_lt (toNat32_lt c), decodeShifted, BitVec.toNat_or,
    BitVec.toNat_or, BitVec.toNat_or, hshift _ 8 (by omega), hshift _ 16 (by omega),
    hshift _ 24 (by omega), hfirst, hsecond, hthird, hfourth, toNat32]
  ring

/-- The probe says little on every host, and so a big one reads the bytes in its own order. -/
theorem decodeFixed32_iff {c : List UInt8} (hc : c.length = 4) :
    (∀ host, decodeFixed32 host c = BitVec.ofNat 32 (toNat32 c)) ↔ c.reverse = c := by
  have htake : c.take 4 = c := List.take_of_length_le hc.le
  have hbig : decodeFixed32 .big c = BitVec.ofNat 32 (toNat32 c.reverse) := by
    change BitVec.ofNat 32 (toNat32 (c.take 4).reverse) = _
    rw [htake]
  constructor
  · intro h
    refine ofNat_toNat32_inj List.length_reverse ?_ (hbig.symm.trans (h .big))
    rw [List.length_reverse, hc]
  · rintro h (_ | _)
    · rfl
    · rw [hbig, h]

theorem murmurLoop_host : ∀ {data : List UInt8} {h : BitVec 32},
    EachBlock (fun c => c.reverse = c) data → murmurLoop .little h data = murmurLoop .big h data
  | c0 :: c1 :: c2 :: c3 :: data, h, hblocks => by
    have hword := (decodeFixed32_iff (c := [c0, c1, c2, c3]) rfl).mpr hblocks.1
    rw [murmurLoop, murmurLoop, hword .little, hword .big]
    exact murmurLoop_host hblocks.2
  | [], _, _ | [_], _, _ | [_, _], _, _ | [_, _, _], _, _ => rfl

/-- The hash does not depend on the host exactly where every four bytes that the loop takes at a
time read the same in both orders. -/
theorem murmurHash_host_iff (data : List UInt8) (seed : BitVec 32) :
    (EachBlock (fun c => ∀ host, decodeFixed32 host c = BitVec.ofNat 32 (toNat32 c)) data ∧
      murmurHash .little data seed = murmurHash .big data seed) ↔
      EachBlock (fun c => c.reverse = c) data := by
  constructor
  · rintro ⟨h, -⟩
    exact h.mono fun c hc => (decodeFixed32_iff hc).mp
  · intro h
    refine ⟨h.mono fun c hc => (decodeFixed32_iff hc).mpr, ?_⟩
    rw [murmurHash_eq, murmurHash_eq, murmurLoop_host h]

/-- One block that reads differently is enough to change the hash, if the others do not. -/
theorem murmurHash_host_ne {c0 c1 c2 c3 : UInt8} (hc : [c0, c1, c2, c3].reverse ≠ [c0, c1, c2, c3])
    (hdata : EachBlock (fun c => c.reverse = c) data) (seed : BitVec 32) :
    murmurHash .little (c0 :: c1 :: c2 :: c3 :: data) seed ≠
      murmurHash .big (c0 :: c1 :: c2 :: c3 :: data) seed := by
  intro heq
  rw [murmurHash_eq, murmurHash_eq, murmurLoop, murmurLoop, murmurLoop_host hdata] at heq
  have hword := eq_of_mix_add_left (by decide) (eq_of_murmurLoop_eq heq)
  refine hc ((decodeFixed32_iff rfl).mp ?_)
  rintro (_ | _)
  · rfl
  · exact hword.symm

theorem murmurHash_host_ne_one :
    murmurHash .little [1, 0, 0, 0] 0 ≠ murmurHash .big [1, 0, 0, 0] 0 := by
  decide

end Host

end MgRaffle.Utils
