import MgRaffle.Library.Looping
import MgRaffle.Library.Stepping
import MgRaffle.MgServer.Buffer

open Looping Stepping

namespace MgRaffle.MgServer

namespace MReadBuf

/-- One turn of the loop in `Skip`. The regions are the `data` and `size` that the turns so far
have counted as skipped. -/
def skipTurn : List Region × MReadBuf × ℤ →
    Option ((List Region × MReadBuf × ℤ) ⊕ (List Region × Bool × MReadBuf))
  | (skipped, r, count) =>
    if 0 < count then
      match r.next with
      | some (data, r) =>
        if data.size > count then
          some (.inl (skipped ++ [{ data with size := count }], r.backUp (data.size - count),
            count - count))
        else some (.inl (skipped ++ [data], r, count - data.size))
      | none => some (.inr (skipped, count == 0, r))
    else some (.inr (skipped, count == 0, r))

/-- Every turn but the last moves `_cur_it`, so the loop is over after one turn for each guard
and one more. -/
def skip (r : MReadBuf) (count : ℤ) : Option (List Region × Bool × MReadBuf) :=
  loop skipTurn (r.bufList.length + 1) ([], r, count)

/-- `_read_bytes` is an `int32_t`. -/
def byteCount (r : MReadBuf) : ℤ := r.readBytes.bmod (2 ^ 32)

/-- What `BackUp` has put back belongs to the chunk at `_cur_it` only. -/
def offset (r : MReadBuf) : ℤ := if r.lastIt = some r.curIt then r.curPos else 0

/-- The chunk that `Next` would return is the one in which `_cur_pos` was set, unless that is
zero. -/
def NextAligned (r : MReadBuf) : Prop :=
  r.curIt < r.bufList.length → r.curPos = 0 ∨ r.lastIt = some r.curIt

/-- Where `_cur_pos` was set in the chunk that comes next, `Skip` ends in that chunk or there is no
other one. -/
def SkipAligned (r : MReadBuf) (count : ℤ) : Prop :=
  0 < count → ∀ g ∈ r.bufList[r.curIt]?, r.curPos = 0 ∨ r.lastIt = some r.curIt ∧
    (count ≤ g.size - r.curPos ∨ r.curIt + 1 = r.bufList.length)

instance (r : MReadBuf) : Decidable r.NextAligned := by
  unfold NextAligned
  infer_instance

instance (r : MReadBuf) (count : ℤ) : Decidable (r.SkipAligned count) := by
  unfold SkipAligned
  infer_instance

end MReadBuf

/-- The sizes of the first `k` guards together. -/
def before (guards : List MBufferGuard) (k : ℕ) : ℤ := ((guards.take k).map fun g => g.size).sum

def contents (store : BufId → List UInt8) (guards : List MBufferGuard) : List UInt8 :=
  guards.flatMap fun g => g.bytes store

/-- The number of bytes in front of the read position. -/
def MReadBuf.position (r : MReadBuf) : ℤ := before r.bufList r.curIt + r.offset

inductive ReadCall
  | next
  | backUp (count : ℤ)
  | skip (count : ℤ)
  deriving Repr, DecidableEq

/-- The buffer, the bytes delivered or skipped less those backed up, and how many bytes of the
chunk last returned by `Next` may be backed up. -/
structure Reading where
  buf : MReadBuf
  taken : List UInt8
  allow : ℤ
  deriving Repr, DecidableEq

namespace Reading

def start (guards : List MBufferGuard) : Reading := ⟨guards.foldl MReadBuf.append .new, [], 0⟩

def step (store : BufId → List UInt8) (s : Reading) : ReadCall → Option Reading
  | .next =>
    match s.buf.next with
    | some (data, r) => some ⟨r, s.taken ++ data.bytes store, data.size⟩
    | none => some s
  | .backUp count => some ⟨s.buf.backUp count, s.taken.take (s.taken.length - count.toNat), 0⟩
  | .skip count => (s.buf.skip count).map fun (skipped, _, r) =>
      ⟨r, s.taken ++ skipped.flatMap fun data => data.bytes store, 0⟩

/-- What the callers of a `ZeroCopyInputStream` keep to. -/
def Legal (s : Reading) : ReadCall → Prop
  | .next => True
  | .backUp count => 0 ≤ count ∧ count ≤ s.allow
  | .skip count => 0 ≤ count

instance (s : Reading) (c : ReadCall) : Decidable (s.Legal c) := by
  cases c <;> unfold Legal <;> infer_instance

def Aligned (s : Reading) : ReadCall → Prop
  | .next => s.buf.NextAligned
  | .backUp _ => True
  | .skip count => s.buf.SkipAligned count

instance (s : Reading) (c : ReadCall) : Decidable (s.Aligned c) := by
  cases c <;> unfold Aligned <;> infer_instance

/-- The bytes taken are the first ones of the guards, as many as `ByteCount` says. -/
def Delivered (store : BufId → List UInt8) (guards : List MBufferGuard) (s : Reading) : Prop :=
  s.taken <+: contents store guards ∧ s.buf.byteCount = s.taken.length

/-- `Next` returns no negative size and fails at the end only, and `Skip` succeeds if and only if
there are enough bytes left. -/
def Answered (store : BufId → List UInt8) (guards : List MBufferGuard) (s : Reading) :
    ReadCall → Prop
  | .next =>
    match s.buf.next with
    | some (data, _) => 0 ≤ data.size
    | none => s.taken = contents store guards
  | .backUp _ => True
  | .skip count => ∃ skipped enough r, s.buf.skip count = some (skipped, enough, r) ∧
      (enough = true ↔ count ≤ (contents store guards).length - s.taken.length)

end Reading

section Contents

variable (store : BufId → List UInt8) {guards : List MBufferGuard} {g : MBufferGuard} {k : ℕ}

theorem before_succ (h : guards[k]? = some g) : before guards (k + 1) = before guards k + g.size := by
  obtain ⟨hlt, hget⟩ := List.getElem?_eq_some_iff.mp h
  simp only [before, List.take_succ_eq_append_getElem hlt, hget, List.map_append, List.sum_append,
    List.map_cons, List.map_nil, List.sum_singleton]

theorem Region.length_bytes {r : Region} (h : r.Within store) :
    ((r.bytes store).length : ℤ) = r.size := by
  obtain ⟨hi, hs, hend⟩ := h
  simp only [Region.bytes, slice, List.length_take, List.length_drop]
  omega

variable (hin : ∀ g ∈ guards, g.Within store)

include hin

theorem length_contents_take (k : ℕ) :
    ((contents store (guards.take k)).length : ℤ) = before guards k := by
  have hlen : ∀ l : List MBufferGuard, (∀ g ∈ l, g.Within store) →
      ((contents store l).length : ℤ) = (l.map fun g => g.size).sum := by
    intro l hl
    induction l with
    | nil => rfl
    | cons g l ih =>
      have hrest := ih fun g hg => hl g (List.mem_cons_of_mem _ hg)
      have hg := Region.length_bytes store (hl g List.mem_cons_self)
      simp only [contents] at hrest
      simp only [contents, List.flatMap_cons, List.length_append, List.map_cons, List.sum_cons,
        Nat.cast_add, hrest, hg]
  exact hlen _ fun g hg => hin g (List.mem_of_mem_take hg)

theorem before_nonneg (k : ℕ) : 0 ≤ before guards k := by
  rw [← length_contents_take store hin k]
  exact Int.natCast_nonneg _

/-- Behind the first `k` guards comes the guard at place `k`. -/
theorem contents_drop (h : guards[k]? = some g) :
    (contents store guards).drop (before guards k).toNat =
      g.bytes store ++ contents store (guards.drop (k + 1)) := by
  obtain ⟨hlt, hget⟩ := List.getElem?_eq_some_iff.mp h
  have hsplit : contents store guards =
      contents store (guards.take k) ++ contents store (guards.drop k) := by
    rw [contents, contents, contents, ← List.flatMap_append, List.take_append_drop]
  have hlen := length_contents_take store hin k
  rw [hsplit, List.drop_append_of_le_length (by omega), List.drop_of_length_le (by omega),
    List.nil_append, List.drop_eq_getElem_cons hlt, hget, contents, contents, List.flatMap_cons]

/-- A piece of the guard at place `k` is found in the contents behind the guards before it. -/
theorem contents_piece (h : guards[k]? = some g) {o n : ℤ} (ho : 0 ≤ o) (hn : 0 ≤ n)
    (hle : o + n ≤ g.size) :
    ((contents store guards).drop (before guards k + o).toNat).take n.toNat =
      slice (store g.buf) (g.index + o) n := by
  have hpos := before_nonneg store hin k
  obtain ⟨hi, hs, hend⟩ := hin g (List.mem_of_getElem? h)
  have hbytes : (g.bytes store).length = g.size.toNat := by
    have := Region.length_bytes store (hin g (List.mem_of_getElem? h))
    omega
  rw [Int.toNat_add hpos ho, ← List.drop_drop, contents_drop store hin h,
    List.drop_append_of_le_length (by omega),
    List.take_append_of_le_length (by rw [List.length_drop]; omega)]
  simp only [Region.bytes, slice]
  rw [List.drop_take, List.take_take, List.drop_drop, Int.toNat_add hi ho,
    min_eq_left (by omega)]

end Contents

/-- The bytes taken are those in front of the read position. -/
structure Placed (store : BufId → List UInt8) (guards : List MBufferGuard) (r : MReadBuf)
    (taken : List UInt8) : Prop where
  bufList : r.bufList = guards
  curIt : r.curIt ≤ guards.length
  cursor : r.lastIt = some r.curIt →
    ∃ g, guards[r.curIt]? = some g ∧ 0 ≤ r.curPos ∧ r.curPos < g.size
  taken : taken = (contents store guards).take r.position.toNat
  readBytes : r.readBytes = r.position

namespace MReadBuf

theorem next_eq_some {r r' : MReadBuf} {data : Region} : r.next = some (data, r') ↔
    ∃ g, r.bufList[r.curIt]? = some g ∧ data = ⟨g.buf, g.index + r.curPos, g.size - r.curPos⟩ ∧
      r' = { r with
        lastIt := some r.curIt, curIt := r.curIt + 1, readBytes := r.readBytes + data.size } := by
  unfold next
  cases r.bufList[r.curIt]? with
  | none => simp
  | some g => simp only [Option.some.injEq, Prod.mk.injEq, exists_eq_left']; grind

theorem curIt_lt_of_next {r : MReadBuf} {p : Region × MReadBuf} (h : r.next = some p) :
    r.curIt < r.bufList.length := by
  by_contra hge
  rw [next_eq_none.mpr (not_lt.mp hge)] at h
  cases h

theorem foldl_append (gs : List MBufferGuard) {r : MReadBuf} (h : r.curIt = 0) :
    gs.foldl append r = { r with
      bufList := r.bufList ++ gs, totalBytes := r.totalBytes + (gs.map fun g => g.size).sum } := by
  induction gs generalizing r with
  | nil => simp
  | cons g gs ih =>
    rw [List.foldl_cons, ih rfl]
    simp only [append, List.append_assoc, List.singleton_append, List.map_cons, List.sum_cons,
      h, add_assoc]

end MReadBuf

section Reading

variable {store : BufId → List UInt8} {guards : List MBufferGuard} {r r' : MReadBuf}
  {taken : List UInt8} {data : Region} {g : MBufferGuard} {k : ℕ} {count : ℤ}

theorem bytes_skipped (store : BufId → List UInt8) (taken : List UInt8) (skipped : List Region)
    (data : Region) : taken ++ (skipped ++ [data]).flatMap (fun d => d.bytes store) =
      (taken ++ skipped.flatMap fun d => d.bytes store) ++ data.bytes store := by
  rw [List.flatMap_append, ← List.append_assoc, List.flatMap_singleton]

theorem Placed.backUp_zero (h : Placed store guards r taken) :
    Placed store guards (r.backUp 0) (taken.take (taken.length - (0 : ℤ).toNat)) := by
  have hback : r.backUp 0 = r := by simp [MReadBuf.backUp]
  rw [hback, Int.toNat_zero, Nat.sub_zero, List.take_length]
  exact h

variable (hin : ∀ g ∈ guards, g.Within store)

include hin

theorem Placed.position_bounds (h : Placed store guards r taken) :
    0 ≤ r.position ∧ r.position ≤ (contents store guards).length := by
  have hle : ∀ k, before guards k ≤ (contents store guards).length := by
    intro k
    rw [← length_contents_take store hin k, contents, contents]
    conv_rhs => rw [← List.take_append_drop k guards, List.flatMap_append, List.length_append]
    omega
  rw [MReadBuf.position, h.bufList, MReadBuf.offset]
  split_ifs with hlast
  · obtain ⟨g, hg, hlow, hhigh⟩ := h.cursor hlast
    have hsucc := before_succ hg
    have hnext := hle (r.curIt + 1)
    have hfirst := before_nonneg store hin r.curIt
    omega
  · have hfirst := before_nonneg store hin r.curIt
    have hnext := hle r.curIt
    omega

theorem Placed.length_taken (h : Placed store guards r taken) :
    (taken.length : ℤ) = r.position := by
  have hbounds := h.position_bounds hin
  rw [h.taken, List.length_take]
  omega

/-- At the end of the list everything is taken. -/
theorem Placed.taken_of_end (h : Placed store guards r taken) (hend : guards.length ≤ r.curIt) :
    r.position = (contents store guards).length := by
  have hlast : r.lastIt ≠ some r.curIt := by
    intro hlast
    obtain ⟨g, hg, -⟩ := h.cursor hlast
    rw [List.getElem?_eq_none hend] at hg
    cases hg
  rw [MReadBuf.position, h.bufList, MReadBuf.offset, if_neg hlast, add_zero,
    ← length_contents_take store hin, List.take_of_length_le hend]

/-- `Next` takes the chunk that it returns, where `_cur_pos` belongs to it. -/
theorem Placed.next (hpos : ∀ g ∈ guards, 0 < g.size) (h : Placed store guards r taken)
    (ha : r.curPos = 0 ∨ r.lastIt = some r.curIt) (hn : r.next = some (data, r')) :
    (∃ g, guards[r.curIt]? = some g ∧ 0 < data.size ∧ data.size ≤ g.size) ∧
      r'.position = r.position + data.size ∧
      Placed store guards r' (taken ++ data.bytes store) := by
  obtain ⟨g, hg, rfl, rfl⟩ := MReadBuf.next_eq_some.mp hn
  rw [h.bufList] at hg
  have hsize := hpos g (List.mem_of_getElem? hg)
  have hoff : r.offset = r.curPos := by
    rw [MReadBuf.offset]
    split_ifs with hlast
    · rfl
    · exact (ha.resolve_right hlast).symm
  have hcursor : 0 ≤ r.curPos ∧ r.curPos < g.size := by
    by_cases hlast : r.lastIt = some r.curIt
    · obtain ⟨g', hg', hrange⟩ := h.cursor hlast
      rw [hg, Option.some.injEq] at hg'
      rw [hg']
      exact hrange
    · have hzero := ha.resolve_right hlast
      omega
  have hold : r.position = before guards r.curIt + r.curPos := by
    rw [MReadBuf.position, h.bufList, hoff]
  have hmove : before r.bufList (r.curIt + 1) = r.position + (g.size - r.curPos) := by
    rw [h.bufList, before_succ hg, hold]
    omega
  have hnew : MReadBuf.position { r with
      lastIt := some r.curIt, curIt := r.curIt + 1
      readBytes := r.readBytes + (g.size - r.curPos) } = r.position + (g.size - r.curPos) := by
    simp [MReadBuf.position, MReadBuf.offset, hmove]
  have hbounds := h.position_bounds hin
  have hlt := (List.getElem?_eq_some_iff.mp hg).1
  refine ⟨⟨g, hg, by dsimp only; omega, by dsimp only; omega⟩, hnew, h.bufList, hlt, ?_, ?_, ?_⟩
  · intro hlast
    simp at hlast
  · have hpiece := contents_piece store hin hg hcursor.1 (n := g.size - r.curPos) (by omega)
      (by omega)
    rw [hnew, Int.toNat_add hbounds.1 (by omega), List.take_add, ← h.taken, hold, hpiece,
      Region.bytes]
  · rw [hnew, ← h.readBytes]

/-- `BackUp` returns the last bytes of the chunk in front of `_cur_it`. -/
theorem Placed.backUp (h : Placed store guards r taken) (hlast : r.lastIt = some k)
    (hcur : r.curIt = k + 1) (hg : guards[k]? = some g) (hc : 0 < count) (hle : count ≤ g.size) :
    (r.backUp count).position = r.position - count ∧
      Placed store guards (r.backUp count) (taken.take (taken.length - count.toNat)) := by
  have hback : r.backUp count = { r with
      curIt := k, curPos := g.size - count, readBytes := r.readBytes - count } := by
    simp [MReadBuf.backUp, hc, hcur, h.bufList, hg]
  have hold : r.position = before guards k + g.size := by
    have hne : ¬ r.lastIt = some r.curIt := by
      rw [hlast, hcur]
      simp
    rw [MReadBuf.position, h.bufList, MReadBuf.offset, if_neg hne, hcur, before_succ hg, add_zero]
  have hnew : (r.backUp count).position = r.position - count := by
    rw [hback, hold]
    simp only [MReadBuf.position, MReadBuf.offset, h.bufList, hlast, if_true]
    omega
  have hlen := h.length_taken hin
  have hbounds := h.position_bounds hin
  refine ⟨hnew, ?_, ?_, ?_, ?_, ?_⟩
  · rw [hback]
    exact h.bufList
  · rw [hback]
    exact (List.getElem?_eq_some_iff.mp hg).1.le
  · intro _
    rw [hback]
    exact ⟨g, hg, by dsimp only; omega, by dsimp only; omega⟩
  · rw [hnew, h.taken, List.take_take]
    congr 1
    rw [← h.taken]
    have hfirst := before_nonneg store hin k
    omega
  · rw [hnew, hback, h.readBytes]

/-- What holds before each turn of the loop in `Skip`, with `m` guards left at most. -/
structure Skipping (store : BufId → List UInt8) (guards : List MBufferGuard) (taken : List UInt8)
    (goal : ℤ) (m : ℕ) (skipped : List Region) (r : MReadBuf) (count : ℤ) : Prop where
  placed : Placed store guards r (taken ++ skipped.flatMap fun data => data.bytes store)
  aligned : r.SkipAligned count
  nonneg : 0 ≤ count
  left : r.position + count = goal
  measure : 0 < count → guards.length ≤ r.curIt + m

/-- What `Skip` leaves behind: the bytes up to `goal` are taken, or all where there are fewer. -/
def Skipped (store : BufId → List UInt8) (guards : List MBufferGuard) (taken : List UInt8) (goal : ℤ)
    (o : List Region × Bool × MReadBuf) : Prop :=
  Placed store guards o.2.2 (taken ++ o.1.flatMap fun data => data.bytes store) ∧
    (o.2.1 = true ↔ goal ≤ (contents store guards).length)

section Turn

variable {goal : ℤ} {m : ℕ} {skipped : List Region}

/-- Without bytes to skip or without a chunk to skip the loop is over. -/
theorem Skipping.last (h : Skipping store guards taken goal m skipped r count)
    (hlast : count = 0 ∨ r.next = none) :
    ∃ o, MReadBuf.skipTurn (skipped, r, count) = some (.inr o) ∧
      Skipped store guards taken goal o := by
  refine ⟨(skipped, count == 0, r), ?_, h.placed, ?_⟩
  · rcases hlast with rfl | hnone
    · rfl
    · simp [MReadBuf.skipTurn, hnone]
  · have hbounds := h.placed.position_bounds hin
    have hleft := h.left
    have hnonneg := h.nonneg
    rcases hlast with rfl | hnone
    · simp only [beq_self_eq_true, true_iff]
      omega
    · rw [MReadBuf.next_eq_none, h.placed.bufList] at hnone
      have hend := h.placed.taken_of_end hin hnone
      simp only [beq_iff_eq]
      omega

theorem Skipping.next (hpos : ∀ g ∈ guards, 0 < g.size)
    (h : Skipping store guards taken goal m skipped r count) (hc : 0 < count)
    (hn : r.next = some (data, r')) :
    (∃ g, guards[r.curIt]? = some g ∧ 0 < data.size ∧ data.size ≤ g.size) ∧
      r'.position = r.position + data.size ∧
      Placed store guards r' (taken ++ (skipped ++ [data]).flatMap fun d => d.bytes store) := by
  obtain ⟨g, hg, -⟩ := MReadBuf.next_eq_some.mp hn
  have haligned : r.curPos = 0 ∨ r.lastIt = some r.curIt := (h.aligned hc g hg).imp_right And.left
  rw [bytes_skipped]
  exact h.placed.next hin hpos haligned hn

/-- A chunk that is too long ends in a `BackUp`, which leaves nothing to skip. -/
theorem Skipping.backUp (hpos : ∀ g ∈ guards, 0 < g.size)
    (h : Skipping store guards taken goal m skipped r count) (hc : 0 < count)
    (hn : r.next = some (data, r')) (hlong : data.size > count) (j : ℕ) :
    Skipping store guards taken goal j (skipped ++ [{ data with size := count }])
      (r'.backUp (data.size - count)) 0 := by
  obtain ⟨⟨g, hg, hsize, hle⟩, hmove, hplaced⟩ := h.next hin hpos hc hn
  have hafter : r'.lastIt = some r.curIt ∧ r'.curIt = r.curIt + 1 := by
    obtain ⟨-, -, -, rfl⟩ := MReadBuf.next_eq_some.mp hn
    exact ⟨rfl, rfl⟩
  have hcount : 0 < data.size - count := by omega
  obtain ⟨hback, hput⟩ := hplaced.backUp hin hafter.1 hafter.2 hg hcount (by omega)
  have hleft := h.left
  refine ⟨?_, ?_, le_rfl, by omega, ?_⟩
  · -- what remains of the chunk after the `BackUp` is its first `count` bytes
    have hold := h.placed.length_taken hin
    have hnew := hplaced.length_taken hin
    rw [bytes_skipped, List.length_append] at hnew
    have hcut : (data.bytes store).take count.toNat =
        Region.bytes store { data with size := count } := by
      rw [Region.bytes, Region.bytes, slice, slice, List.take_take, min_eq_left (by omega)]
    have hkeep : (taken ++ (skipped ++ [data]).flatMap fun d => d.bytes store).length -
        (data.size - count).toNat =
          (taken ++ skipped.flatMap fun d => d.bytes store).length + count.toNat := by
      rw [bytes_skipped, List.length_append]
      omega
    rw [hkeep, bytes_skipped, List.take_length_add_append, hcut] at hput
    rw [bytes_skipped]
    exact hput
  · intro hzero
    omega
  · intro hzero
    omega

/-- A chunk that is not too long is skipped to its end. -/
theorem Skipping.chunk (hpos : ∀ g ∈ guards, 0 < g.size)
    (h : Skipping store guards taken goal m skipped r count) (hc : 0 < count)
    (hn : r.next = some (data, r')) (hshort : ¬ data.size > count) :
    Skipping store guards taken goal (m - 1) (skipped ++ [data]) r' (count - data.size) := by
  obtain ⟨⟨g, hg, hsize, hle⟩, hmove, hplaced⟩ := h.next hin hpos hc hn
  have hleft := h.left
  have hmeasure := h.measure hc
  have haligned := h.aligned hc
  obtain ⟨g', hg', hdata, hr'⟩ := MReadBuf.next_eq_some.mp hn
  have hcur : r'.curIt = r.curIt + 1 := by rw [hr']
  refine ⟨hplaced, ?_, by omega, by omega, by omega⟩
  intro hmore x hx
  rcases haligned g' hg' with hzero | ⟨-, hends⟩
  · left
    rw [hr']
    exact hzero
  · -- the chunk ends where the call does, or it is the last one
    rcases hends with hends | hends
    · rw [hdata] at hmore
      dsimp only at hmore
      omega
    · rw [List.getElem?_eq_none (by rw [hcur, hends, hr'])] at hx
      cases hx

theorem Skipping.turn (hpos : ∀ g ∈ guards, 0 < g.size)
    (h : Skipping store guards taken goal m skipped r count) :
    (∃ t, MReadBuf.skipTurn (skipped, r, count) = some (.inl t) ∧
      ∃ j < m, Skipping store guards taken goal j t.1 t.2.1 t.2.2) ∨
    ∃ o, MReadBuf.skipTurn (skipped, r, count) = some (.inr o) ∧
      Skipped store guards taken goal o := by
  by_cases hc : 0 < count
  · cases hn : r.next with
    | none => exact Or.inr (h.last hin (Or.inr hn))
    | some p =>
      obtain ⟨data, r'⟩ := p
      left
      have hm : 0 < m := by
        have hmeasure := h.measure hc
        have hlt := MReadBuf.curIt_lt_of_next hn
        rw [h.placed.bufList] at hlt
        omega
      by_cases hlong : data.size > count
      · refine ⟨(skipped ++ [{ data with size := count }], r'.backUp (data.size - count),
          count - count), ?_, m - 1, by omega, ?_⟩
        · simp [MReadBuf.skipTurn, hc, hn, hlong]
        · rw [sub_self]
          exact h.backUp hin hpos hc hn hlong (m - 1)
      · refine ⟨(skipped ++ [data], r', count - data.size), ?_, m - 1, by omega, ?_⟩
        · simp [MReadBuf.skipTurn, hc, hn, hlong]
        · exact h.chunk hin hpos hc hn hlong
  · have hzero : count = 0 := by
      have hnonneg := h.nonneg
      omega
    exact Or.inr (h.last hin (Or.inl hzero))

end Turn

/-- `Skip` takes the bytes that it passes, and succeeds if there are enough of them. -/
theorem Placed.skip (hpos : ∀ g ∈ guards, 0 < g.size) (h : Placed store guards r taken)
    (hc : 0 ≤ count) (ha : r.SkipAligned count) :
    ∃ o, r.skip count = some o ∧ Skipped store guards taken (r.position + count) o := by
  have hstart : Skipping store guards taken (r.position + count) r.bufList.length [] r count := by
    refine ⟨?_, ha, hc, rfl, ?_⟩
    · rw [List.flatMap_nil, List.append_nil]
      exact h
    · intro _
      rw [h.bufList]
      omega
  have hturn : ∀ m (s : List Region × MReadBuf × ℤ),
      Skipping store guards taken (r.position + count) m s.1 s.2.1 s.2.2 →
      (∃ t, MReadBuf.skipTurn s = some (.inl t) ∧
        ∃ j < m, Skipping store guards taken (r.position + count) j t.1 t.2.1 t.2.2) ∨
      ∃ o, MReadBuf.skipTurn s = some (.inr o) ∧
        Skipped store guards taken (r.position + count) o :=
    fun _ _ hs => hs.turn hin hpos
  exact loop_total (s := ([], r, count)) hturn hstart (by omega)

end Reading

section Runs

/-- The bytes taken lie in front of the read position, and what may be backed up is part of the
chunk right before it. -/
structure Held (store : BufId → List UInt8) (guards : List MBufferGuard) (s : Reading) : Prop where
  placed : Placed store guards s.buf s.taken
  allow : 0 < s.allow → ∃ k g, s.buf.lastIt = some k ∧ s.buf.curIt = k + 1 ∧
    guards[k]? = some g ∧ s.allow ≤ g.size

variable {store : BufId → List UInt8} {guards : List MBufferGuard} {s t : Reading}

theorem held_start (store : BufId → List UInt8) (guards : List MBufferGuard) :
    Held store guards (.start guards) := by
  have hbuf : (Reading.start guards).buf =
      { MReadBuf.new with bufList := guards, totalBytes := 0 + (guards.map fun g => g.size).sum } :=
    MReadBuf.foldl_append guards rfl
  have hzero : (Reading.start guards).buf.position = 0 := by
    rw [hbuf]
    rfl
  refine ⟨⟨?_, ?_, ?_, ?_, ?_⟩, ?_⟩
  · rw [hbuf]
  · rw [hbuf]
    exact Nat.zero_le _
  · intro h
    rw [hbuf] at h
    cases h
  · rw [hzero]
    rfl
  · rw [hzero, hbuf]
    rfl
  · intro h
    cases h

variable (hin : ∀ g ∈ guards, g.Within store)

include hin

theorem held_step (hpos : ∀ g ∈ guards, 0 < g.size) {c : ReadCall} (h : Held store guards s)
    (hl : s.Legal c) (ha : s.Aligned c) (hstep : s.step store c = some t) : Held store guards t := by
  obtain ⟨buf, taken, allow⟩ := s
  obtain ⟨hp, hallow⟩ := h
  cases c with
  | next =>
    cases hn : buf.next with
    | none =>
      simp only [Reading.step, hn, Option.some.injEq] at hstep
      rw [← hstep]
      exact ⟨hp, hallow⟩
    | some p =>
      obtain ⟨data, r⟩ := p
      simp only [Reading.step, hn, Option.some.injEq] at hstep
      rw [← hstep]
      obtain ⟨⟨g, hg, -, hle⟩, -, hplaced⟩ :=
        hp.next hin hpos (ha (MReadBuf.curIt_lt_of_next hn)) hn
      obtain ⟨-, -, -, hr⟩ := MReadBuf.next_eq_some.mp hn
      refine ⟨hplaced, fun _ => ⟨buf.curIt, g, ?_, ?_, hg, hle⟩⟩
      · rw [hr]
      · rw [hr]
  | backUp count =>
    simp only [Reading.step, Option.some.injEq] at hstep
    rw [← hstep]
    refine ⟨?_, fun hzero => absurd hzero (lt_irrefl _)⟩
    rcases hl.1.lt_or_eq with hc | rfl
    · obtain ⟨k, g, hlast, hcur, hg, hle⟩ := hallow (lt_of_lt_of_le hc hl.2)
      exact (hp.backUp hin hlast hcur hg hc (hl.2.trans hle)).2
    · exact hp.backUp_zero
  | skip count =>
    obtain ⟨⟨skipped, enough, r⟩, ho, hplaced, -⟩ := hp.skip hin hpos hl ha
    simp only [Reading.step, ho, Option.map_some, Option.some.injEq] at hstep
    rw [← hstep]
    exact ⟨hplaced, fun hzero => absurd hzero (lt_irrefl _)⟩

theorem Held.delivered (hsum : (guards.map fun g => g.size).sum < 2 ^ 31) (h : Held store guards s) :
    s.Delivered store guards := by
  have hlen := h.placed.length_taken hin
  have hbounds := h.placed.position_bounds hin
  have hall : ((contents store guards).length : ℤ) = (guards.map fun g => g.size).sum := by
    have := length_contents_take store hin guards.length
    rw [before, List.take_length] at this
    exact this
  constructor
  · rw [h.placed.taken]
    exact List.take_prefix _ _
  · rw [MReadBuf.byteCount, h.placed.readBytes, hlen, Int.bmod_eq_of_le] <;> omega

theorem Held.answered (hpos : ∀ g ∈ guards, 0 < g.size) {c : ReadCall} (h : Held store guards s)
    (hl : s.Legal c) (ha : s.Aligned c) : s.Answered store guards c := by
  cases c with
  | next =>
    unfold Reading.Answered
    cases hn : s.buf.next with
    | none =>
      rw [MReadBuf.next_eq_none, h.placed.bufList] at hn
      have hend := h.placed.taken_of_end hin hn
      have htaken := h.placed.taken
      rw [hend, Int.toNat_natCast, List.take_length] at htaken
      exact htaken
    | some p =>
      obtain ⟨data, r⟩ := p
      obtain ⟨⟨g, -, hsize, -⟩, -⟩ :=
        h.placed.next hin hpos (ha (MReadBuf.curIt_lt_of_next hn)) hn
      exact hsize.le
  | backUp count => trivial
  | skip count =>
    obtain ⟨⟨skipped, enough, r⟩, ho, -, henough⟩ := h.placed.skip hin hpos hl ha
    have hlen := h.placed.length_taken hin
    refine ⟨skipped, enough, r, ho, ?_⟩
    rw [henough, hlen]
    constructor <;> intro hle <;> omega

end Runs

/-- A run in which every call starts aligned takes a prefix of the guards' bytes, counts it, and has
every call answered as a `ZeroCopyInputStream` must. -/
theorem reading_honours_contract (store : BufId → List UInt8) (guards : List MBufferGuard)
    (hpos : ∀ g ∈ guards, 0 < g.size) (hin : ∀ g ∈ guards, g.Within store)
    (hsum : (guards.map fun g => g.size).sum < 2 ^ 31) (s : Reading)
    (h : Reachable (Reading.step store) (fun s c => s.Legal c ∧ s.Aligned c) (.start guards) s) :
    s.Delivered store guards ∧ ∀ c, s.Legal c → s.Aligned c → s.Answered store guards c := by
  have hheld : Held store guards s := by
    apply Reachable.invariant (Held store guards) (held_start store guards) _ h
    intro s c t hs hc hstep
    exact held_step hin hpos hs hc.1 hc.2 hstep
  exact ⟨hheld.delivered hin hsum, fun c hl ha => hheld.answered hin hpos hl ha⟩

/-- Two guards of two bytes, read with a `BackUp` of a whole chunk and a `Skip` into the last one. -/
theorem reading_honours_contract_two : ∃ s,
    runIf (Reading.step fun _ => [1, 2, 3, 4]) (fun s c => s.Legal c ∧ s.Aligned c)
      (.start [⟨⟨0, 0, 2⟩⟩, ⟨⟨0, 2, 2⟩⟩]) [.next, .backUp 2, .next, .skip 1, .next, .next] = some s ∧
    (s.Delivered (fun _ => [1, 2, 3, 4]) [⟨⟨0, 0, 2⟩⟩, ⟨⟨0, 2, 2⟩⟩] ∧ ∀ c, s.Legal c → s.Aligned c →
      s.Answered (fun _ => [1, 2, 3, 4]) [⟨⟨0, 0, 2⟩⟩, ⟨⟨0, 2, 2⟩⟩] c) := by
  obtain ⟨s, hs⟩ : ∃ s, runIf (Reading.step fun _ => [1, 2, 3, 4])
      (fun s c => s.Legal c ∧ s.Aligned c) (.start [⟨⟨0, 0, 2⟩⟩, ⟨⟨0, 2, 2⟩⟩])
      [.next, .backUp 2, .next, .skip 1, .next, .next] = some s := ⟨_, rfl⟩
  refine ⟨s, hs, reading_honours_contract (fun _ => [1, 2, 3, 4]) [⟨⟨0, 0, 2⟩⟩, ⟨⟨0, 2, 2⟩⟩]
    (by decide) ?_ (by decide) s (.of_runIf .init hs)⟩
  intro g hg
  fin_cases hg <;> exact ⟨by decide, by decide, by decide⟩

/-- Of two guards of two bytes the third byte is never delivered: the second chunk is read from the
place where the first one was left. -/
theorem next_reads_from_stale_position : ¬ ∀ (store : BufId → List UInt8)
    (guards : List MBufferGuard), (∀ g ∈ guards, 0 < g.size) → (∀ g ∈ guards, g.Within store) →
    (guards.map fun g => g.size).sum < 2 ^ 31 → ∀ s,
    Reachable (Reading.step store) Reading.Legal (.start guards) s → s.Delivered store guards := by
  intro h
  have hin : ∀ g ∈ [MBufferGuard.mk ⟨0, 0, 2⟩, ⟨⟨0, 2, 2⟩⟩], g.Within fun _ => [1, 2, 3, 4] := by
    intro g hg
    fin_cases hg <;> exact ⟨by decide, by decide, by decide⟩
  obtain ⟨s, hs⟩ : ∃ s, runIf (Reading.step fun _ => [1, 2, 3, 4]) Reading.Legal
      (.start [⟨⟨0, 0, 2⟩⟩, ⟨⟨0, 2, 2⟩⟩]) [.skip 1, .next, .next] = some s := ⟨_, rfl⟩
  have hreach := (h _ _ (by decide) hin (by decide) s (.of_runIf .init hs)).1
  cases hs
  revert hreach
  decide

end MgRaffle.MgServer
