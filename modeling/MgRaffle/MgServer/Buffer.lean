import Mathlib.Tactic

namespace MgRaffle.MgServer

abbrev BufId := ℕ

/-- `memcpy(dst + off, src, |src|)`. -/
def memcpy (dst : List UInt8) (off : ℤ) (src : List UInt8) : List UInt8 :=
  dst.take off.toNat ++ src ++ dst.drop (off.toNat + src.length)

/-- The `size` bytes from offset `index` of a storage. An offset below zero lies
before the allocation, where the source's behaviour is undefined. -/
def slice (storage : List UInt8) (index size : ℤ) : List UInt8 :=
  (storage.drop index.toNat).take size.toNat

structure MBuffer where
  storage : List UInt8
  capacity : ℤ
  curIndex : ℤ
  remain : ℤ
  deriving Repr, DecidableEq

namespace MBuffer

/-- `new char[capacity]` throws rather than returning null, so the capacity is the given one. -/
def new (capacity : ℕ) : MBuffer := ⟨List.replicate capacity 0, capacity, 0, capacity⟩

/-- Moves the cursor only: `_remain` keeps its value. -/
def consume (b : MBuffer) (offset : ℤ) : MBuffer := { b with curIndex := b.curIndex + offset }

def reset (b : MBuffer) : MBuffer := { b with curIndex := 0, remain := b.capacity }

/-- The `len` bytes that `Buf()` points to. -/
def read (b : MBuffer) (len : ℤ) : List UInt8 := slice b.storage b.curIndex len

/-- Bytes written through `Buf()`. -/
def write (b : MBuffer) (bytes : List UInt8) : MBuffer :=
  { b with storage := memcpy b.storage b.curIndex bytes }

end MBuffer

def BUFFER_POOL_SIZE : ℕ := 1024

def POOL_BUFFER_CAPACITY : ℕ := 1024

/-- A run of bytes in a buffer: `Buf()` and `Size()` of a guard, or what `Next` hands out. -/
structure Region where
  buf : BufId
  index : ℤ
  size : ℤ
  deriving Repr, DecidableEq

def Region.bytes (store : BufId → List UInt8) (r : Region) : List UInt8 :=
  slice (store r.buf) r.index r.size

/-- The region lies inside the bytes that its buffer holds. -/
def Region.Within (store : BufId → List UInt8) (r : Region) : Prop :=
  0 ≤ r.index ∧ 0 ≤ r.size ∧ r.index + r.size ≤ (store r.buf).length

/-- `MBufferGuard`: `_index` is the buffer's `Buf()` when the guard was built. Its destructor
gives the buffer back. -/
structure MBufferGuard extends Region where
  deriving Repr, DecidableEq

def MBufferGuard.new (id : BufId) (b : MBuffer) (size : ℤ) : MBufferGuard := ⟨⟨id, b.curIndex, size⟩⟩

/-- The iterators are positions in the list, `_buf_list.size()` being `end()`; an iterator
that was never set, or whose element is erased, is `none`. -/
structure MReadBuf where
  bufList : List MBufferGuard
  curIt : ℕ
  lastIt : Option ℕ
  curPos : ℤ
  readBytes : ℤ
  totalBytes : ℤ
  deriving Repr, DecidableEq

namespace MReadBuf

def new : MReadBuf := ⟨[], 0, none, 0, 0, 0⟩

def append (r : MReadBuf) (g : MBufferGuard) : MReadBuf :=
  { r with bufList := r.bufList ++ [g], curIt := 0, totalBytes := r.totalBytes + g.size }

def next (r : MReadBuf) : Option (Region × MReadBuf) :=
  match r.bufList[r.curIt]? with
  | some g =>
    let data : Region := ⟨g.buf, g.index + r.curPos, g.size - r.curPos⟩
    some (data, { r with
      lastIt := some r.curIt, curIt := r.curIt + 1, readBytes := r.readBytes + data.size })
  | none => none

def backUp (r : MReadBuf) (count : ℤ) : MReadBuf :=
  if 0 < count then
    let it := r.curIt - 1
    { r with
      curIt := it
      curPos := ((r.bufList[it]?).map fun g => g.size - count).getD r.curPos
      readBytes := r.readBytes - count }
  else { r with readBytes := r.readBytes - count }

/-- The guard that `erase` destroys, and the list without it. -/
def erase (r : MReadBuf) : Option MBufferGuard × MReadBuf :=
  match r.lastIt with
  | some last =>
    if r.curIt = last then (none, r)
    else (r.bufList[last]?, { r with
      bufList := r.bufList.eraseIdx last
      curIt := if last < r.curIt then r.curIt - 1 else r.curIt
      lastIt := none })
  | none => (none, r)

/-- What calling `next` again and again delivers from here on: every guard is read from
`_cur_pos`, which `next` never clears. -/
def pending (store : BufId → List UInt8) (r : MReadBuf) : List UInt8 :=
  (r.bufList.drop r.curIt).flatMap fun g =>
    slice (store g.buf) (g.index + r.curPos) (g.size - r.curPos)

end MReadBuf

section Slices

theorem slice_zero_size (storage : List UInt8) (index : ℤ) {size : ℤ} (h : size ≤ 0) :
    slice storage index size = [] := by
  simp [slice, Int.toNat_of_nonpos h]

theorem slice_eq_take {storage rest : List UInt8} {index : ℤ} (size : ℤ)
    (h : rest = storage.drop index.toNat) : slice storage index size = rest.take size.toNat := by
  rw [slice, h]

/-- A run of bytes is its first `k` ones and the others. -/
theorem slice_append {storage : List UInt8} {index size k : ℤ} (hi : 0 ≤ index) (hk : 0 ≤ k)
    (h : k ≤ size) :
    slice storage index k ++ slice storage (index + k) (size - k) = slice storage index size := by
  have hidx : (index + k).toNat = index.toNat + k.toNat := by omega
  have hsize : size.toNat = k.toNat + (size - k).toNat := by omega
  rw [slice, slice, slice, hidx, hsize, List.take_add, List.drop_drop]

end Slices

namespace MReadBuf

variable (store : BufId → List UInt8)

@[simp] theorem pending_new : new.pending store = [] := rfl

theorem pending_append {r : MReadBuf} (h : r.curIt = 0) (g : MBufferGuard) :
    (r.append g).pending store =
      r.pending store ++ slice (store g.buf) (g.index + r.curPos) (g.size - r.curPos) := by
  simp only [pending, append, h, List.drop_zero, List.flatMap_append, List.flatMap_cons,
    List.flatMap_nil, List.append_nil]

theorem pending_nil {r : MReadBuf} (h : r.bufList = []) : r.pending store = [] := by
  rw [pending, h, List.drop_nil, List.flatMap_nil]

/-- Each `next` hands out the bytes at the front of `pending`. -/
theorem pending_next {r r' : MReadBuf} {data : Region} (h : r.next = some (data, r')) :
    r.pending store = data.bytes store ++ r'.pending store := by
  unfold next at h
  cases hg : r.bufList[r.curIt]? with
  | none => simp [hg] at h
  | some g =>
    simp only [hg, Option.some.injEq, Prod.mk.injEq] at h
    obtain ⟨rfl, rfl⟩ := h
    obtain ⟨hlt, hget⟩ := List.getElem?_eq_some_iff.mp hg
    simp only [pending, Region.bytes]
    rw [List.drop_eq_getElem_cons hlt, List.flatMap_cons, hget]

section Front

variable {r : MReadBuf} {g : MBufferGuard} {gs : List MBufferGuard}

/-- The read buffer after `next` has handed out the guard `g` at the front of the list. -/
def nexted (r : MReadBuf) (g : MBufferGuard) : MReadBuf :=
  { r with lastIt := some 0, curIt := 1, readBytes := r.readBytes + (g.size - r.curPos) }

theorem next_of_cons (h : r.curIt = 0) (hl : r.bufList = g :: gs) :
    r.next = some (⟨g.buf, g.index + r.curPos, g.size - r.curPos⟩, r.nexted g) := by
  simp only [next, h, hl, List.getElem?_cons_zero, nexted]

theorem backUp_nexted (hl : r.bufList = g :: gs) {count : ℤ} (hc : 0 < count) :
    (r.nexted g).backUp count =
      { r with
        lastIt := some 0, curIt := 0, curPos := g.size - count
        readBytes := r.readBytes + (g.size - r.curPos) - count } := by
  simp [backUp, nexted, hc, hl]

theorem erase_nexted (hl : r.bufList = g :: gs) :
    (r.nexted g).erase = (some g,
      { r with
        bufList := gs, lastIt := none, curIt := 0
        readBytes := r.readBytes + (g.size - r.curPos) }) := by
  simp [erase, nexted, hl]

end Front

/-- `next` fails exactly when nothing is left in the list. -/
theorem next_eq_none {r : MReadBuf} : r.next = none ↔ r.bufList.length ≤ r.curIt := by
  unfold next
  cases hg : r.bufList[r.curIt]? with
  | none => simpa using hg
  | some g =>
    obtain ⟨hlt, -⟩ := List.getElem?_eq_some_iff.mp hg
    simpa using hlt

theorem pending_of_next_eq_none {r : MReadBuf} (h : r.next = none) : r.pending store = [] := by
  rw [pending, List.drop_of_length_le (next_eq_none.mp h), List.flatMap_nil]

end MReadBuf

end MgRaffle.MgServer
