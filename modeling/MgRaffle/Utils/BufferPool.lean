import MgRaffle.Library.Extents
import MgRaffle.Library.Stepping

namespace MgRaffle.Utils
open Extents Stepping

def BUFFER_BLOCK_SIZE : ℕ := 4 * 1024

def LARGE_BLOCK_SIZE : ℕ := 1024

/-- `_buffer_pool` has with each block the size that it was made with. -/
structure BufferPool where
  bufferPool : List Extent
  memoryUsage : ℕ
  curPtr : ℕ
  curRemain : ℕ
  deriving Repr, DecidableEq

namespace BufferPool

def new : BufferPool := ⟨[], 0, 0, 0⟩

/-- The block that `new char[size]` has made is at `p`. -/
def allocateNewBlock (size p : ℕ) (b : BufferPool) : ℕ × BufferPool :=
  (p, { b with
    bufferPool := b.bufferPool ++ [⟨p, size⟩]
    memoryUsage := (b.memoryUsage + size) % 2 ^ 64 })

/-- The size of the block that `allocate_fallback` asks for. -/
def blockSize (size : ℕ) : ℕ := if size ≥ LARGE_BLOCK_SIZE then size else BUFFER_BLOCK_SIZE

def allocateFallback (size : ℕ) (make : ℕ → ℕ) (b : BufferPool) : ℕ × BufferPool :=
  if size ≥ LARGE_BLOCK_SIZE then b.allocateNewBlock size (make size)
  else
    let (curPtr, b) := b.allocateNewBlock BUFFER_BLOCK_SIZE (make BUFFER_BLOCK_SIZE)
    (curPtr, { b with curPtr := curPtr + size, curRemain := BUFFER_BLOCK_SIZE - size })

def allocate (size : ℕ) (make : ℕ → ℕ) (b : BufferPool) : ℕ × BufferPool :=
  if b.curRemain > size then
    (b.curPtr, { b with curPtr := b.curPtr + size, curRemain := b.curRemain - size })
  else b.allocateFallback size make

/-- What is left of the current block. -/
def tail (b : BufferPool) : Extent := ⟨b.curPtr, b.curRemain⟩

end BufferPool

/-- A call of `allocate`, with the addresses that `new char[]` would answer in it. -/
structure Request where
  size : ℕ
  make : ℕ → ℕ

/-- The pool, and what it has handed out so far, the latest first. -/
structure Allocation where
  pool : BufferPool
  results : List Extent
  deriving Repr, DecidableEq

namespace Allocation

def start : Allocation := ⟨.new, []⟩

/-- A new block is not at the null pointer, ends within the address space and is apart from all
others. -/
def Fresh (s : Allocation) (c : Request) : Prop :=
  s.pool.curRemain ≤ c.size →
    let n := BufferPool.blockSize c.size
    0 < c.make n ∧ c.make n + n ≤ 2 ^ 64 ∧ ∀ q ∈ s.pool.bufferPool, Extent.Apart ⟨c.make n, n⟩ q

instance (s : Allocation) (c : Request) : Decidable (s.Fresh c) := by
  unfold Fresh
  infer_instance

/-- `none` where the assertion fails, or where `new` would not answer so. -/
def step (s : Allocation) (c : Request) : Option Allocation :=
  if 0 < c.size ∧ s.Fresh c then
    let r := s.pool.allocate c.size c.make
    some ⟨r.2, ⟨r.1, c.size⟩ :: s.results⟩
  else none

/-- The results are apart from each other and from the rest of the current block, each inside a
block; a rest of no bytes, as before the first block, is inside every block. -/
structure Disjoint (s : Allocation) : Prop where
  inside : ∀ e ∈ s.results, ∃ b ∈ s.pool.bufferPool, e.Inside b
  apart : s.results.Pairwise Extent.Apart
  tailInside : s.pool.curRemain = 0 ∨ ∃ b ∈ s.pool.bufferPool, s.pool.tail.Inside b
  tailApart : ∀ e ∈ s.results, s.pool.tail.Apart e
  usage : s.pool.memoryUsage = (s.pool.bufferPool.map (·.size)).sum

end Allocation

/-- Blocks without headers. -/
def blockRegions (blocks : List Extent) : List Region := blocks.map fun b => ⟨b, 0⟩

theorem blockRegions_append (blocks : List Extent) (b : Extent) :
    (blockRegions (blocks ++ [b])).Perm (⟨b, 0⟩ :: blockRegions blocks) := by
  rw [blockRegions, List.map_append]
  exact List.perm_append_singleton _ _

namespace Allocation

variable {s t : Allocation} {c : Request}

/-- The rest of the current block, if there is one. -/
def rest (b : BufferPool) : List Extent := if b.curRemain = 0 then [] else [b.tail]

/-- Blocks that are apart from each other have been parted into the results and the rest. -/
structure Sound (s : Allocation) : Prop where
  parted : Parted (blockRegions s.pool.bufferPool) (rest s.pool ++ s.results)
  blocks : s.pool.bufferPool.Pairwise Extent.Apart
  bounds : ∀ b ∈ s.pool.bufferPool, 1 ≤ b.start ∧ b.start + b.size ≤ 2 ^ 64
  usage : s.pool.memoryUsage = (s.pool.bufferPool.map (·.size)).sum
  unset : s.pool.curRemain = 0 → s.pool.curPtr = 0

/-- The same where the current block may be used up, as `allocate_align` leaves it. -/
structure Shared (s : Allocation) : Prop where
  parted : Parted (blockRegions s.pool.bufferPool) (rest s.pool ++ s.results)
  blocks : s.pool.bufferPool.Pairwise Extent.Apart
  bounds : ∀ b ∈ s.pool.bufferPool, 1 ≤ b.start ∧ b.start + b.size ≤ 2 ^ 64
  usage : s.pool.memoryUsage = (s.pool.bufferPool.map (·.size)).sum

theorem Sound.shared (h : s.Sound) : s.Shared := ⟨h.parted, h.blocks, h.bounds, h.usage⟩

theorem sound_start : start.Sound := by
  refine ⟨⟨nofun, .nil, nofun⟩, .nil, nofun, rfl, fun _ => rfl⟩

theorem Sound.disjoint (h : s.Sound) : s.Disjoint := by
  have hblock (e : Extent) (he : e ∈ rest s.pool ++ s.results) :
      ∃ b ∈ s.pool.bufferPool, e.Inside b := by
    obtain ⟨r, hr, hin⟩ := h.parted.inside e he
    obtain ⟨b, hb, rfl⟩ := List.mem_map.mp hr
    exact ⟨b, hb, hin⟩
  have hpair := List.pairwise_append.mp h.parted.apart
  refine ⟨fun e he => hblock e (List.mem_append_right _ he), hpair.2.1, ?_, ?_, h.usage⟩
  · by_cases hzero : s.pool.curRemain = 0
    · exact Or.inl hzero
    · right
      apply hblock
      simp [rest, hzero]
  · intro e he
    by_cases hzero : s.pool.curRemain = 0
    · left
      change s.pool.curPtr + s.pool.curRemain ≤ e.start
      have hnull := h.unset hzero
      omega
    · apply hpair.2.2
      · simp [rest, hzero]
      · exact he

/-- The current block gives `size` bytes behind `slot` bytes that it leaves out. -/
theorem Shared.taken (h : s.Shared) (slot : ℕ) {size : ℕ} (hsize : 0 < size)
    (hroom : size + slot ≤ s.pool.curRemain) :
    Shared ⟨{ s.pool with
        curPtr := s.pool.curPtr + (size + slot), curRemain := s.pool.curRemain - (size + slot) },
      ⟨s.pool.curPtr + slot, size⟩ :: s.results⟩ := by
  have hold : s.pool.curRemain ≠ 0 := by omega
  have hparted := h.parted
  simp only [rest, if_neg hold, List.singleton_append] at hparted
  refine ⟨?_, h.blocks, h.bounds, h.usage⟩
  have hskip : Extent.Inside ⟨s.pool.curPtr + slot, s.pool.curRemain - slot⟩ s.pool.tail := by
    unfold Extent.Inside BufferPool.tail
    dsimp only
    omega
  have hcut := (hparted.shrink hskip).carve (k := size) (by dsimp only; omega)
  simp only [rest]
  split_ifs with hnew
  · exact hcut.sublist (List.sublist_cons_self ..)
  · refine hcut.shrink ?_
    unfold Extent.Inside BufferPool.tail
    dsimp only
    omega

/-- The current block has more than the bytes that are asked for. -/
theorem Sound.taken (h : s.Sound) (hsize : 0 < c.size) (hroom : s.pool.curRemain > c.size) :
    Sound ⟨{ s.pool with
        curPtr := s.pool.curPtr + c.size, curRemain := s.pool.curRemain - c.size },
      ⟨s.pool.curPtr, c.size⟩ :: s.results⟩ := by
  have hnew : s.pool.curRemain - c.size ≠ 0 := by omega
  have hshared := h.shared.taken 0 hsize hroom.le
  exact ⟨hshared.parted, hshared.blocks, hshared.bounds, hshared.usage,
    fun hzero => absurd hzero hnew⟩

/-- A new block that is apart from the others keeps the count of the bytes from wrapping around. -/
theorem Shared.allocateNewBlock (h : s.Shared) {size p : ℕ} (hp : 0 < p) (hend : p + size ≤ 2 ^ 64)
    (hfresh : ∀ q ∈ s.pool.bufferPool, Extent.Apart ⟨p, size⟩ q) :
    let b := (s.pool.allocateNewBlock size p).2
    b.bufferPool.Pairwise Extent.Apart ∧
      (∀ q ∈ b.bufferPool, 1 ≤ q.start ∧ q.start + q.size ≤ 2 ^ 64) ∧
      b.memoryUsage = (b.bufferPool.map (·.size)).sum := by
  have hblocks : (s.pool.bufferPool ++ [(⟨p, size⟩ : Extent)]).Pairwise Extent.Apart := by
    rw [List.pairwise_append]
    refine ⟨h.blocks, List.pairwise_singleton _ _, ?_⟩
    intro q hq e he
    rw [List.mem_singleton.mp he]
    exact (hfresh q hq).symm
  have hbounds : ∀ q ∈ s.pool.bufferPool ++ [⟨p, size⟩],
      1 ≤ q.start ∧ q.start + q.size ≤ 2 ^ 64 := by
    intro q hq
    rcases List.mem_append.mp hq with hq | hq
    · exact h.bounds q hq
    · rw [List.mem_singleton.mp hq]
      exact ⟨hp, hend⟩
  have hsum := sum_sizes_le hblocks hbounds
  refine ⟨hblocks, hbounds, ?_⟩
  simp only [BufferPool.allocateNewBlock, List.map_append, List.sum_append, List.map_cons,
    List.map_nil, List.sum_cons, List.sum_nil, h.usage] at hsum ⊢
  omega

/-- A large request has a block of its own. -/
theorem Shared.large (h : s.Shared) (hp : 0 < c.make c.size)
    (hend : c.make c.size + c.size ≤ 2 ^ 64)
    (hfresh : ∀ q ∈ s.pool.bufferPool, Extent.Apart ⟨c.make c.size, c.size⟩ q) :
    Shared ⟨(s.pool.allocateNewBlock c.size (c.make c.size)).2,
      ⟨c.make c.size, c.size⟩ :: s.results⟩ := by
  obtain ⟨hblocks, hbounds, husage⟩ := h.allocateNewBlock hp hend hfresh
  refine ⟨?_, hblocks, hbounds, husage⟩
  have hnew := h.parted.obtained (r := ⟨⟨c.make c.size, c.size⟩, 0⟩) (Nat.zero_le _) ?_
  · apply (hnew.perm List.perm_middle.symm).reregion
    exact (blockRegions_append _ _).symm
  · intro q hq
    obtain ⟨b, hb, rfl⟩ := List.mem_map.mp hq
    exact hfresh b hb

/-- A small request that does not fit begins a new current block; what was left of the old one is
given up. -/
theorem Shared.renewed (h : s.Shared) (hsmall : c.size < LARGE_BLOCK_SIZE)
    (hp : 0 < c.make BUFFER_BLOCK_SIZE) (hend : c.make BUFFER_BLOCK_SIZE + BUFFER_BLOCK_SIZE ≤ 2 ^ 64)
    (hfresh : ∀ q ∈ s.pool.bufferPool,
      Extent.Apart ⟨c.make BUFFER_BLOCK_SIZE, BUFFER_BLOCK_SIZE⟩ q) :
    Shared ⟨{ (s.pool.allocateNewBlock BUFFER_BLOCK_SIZE (c.make BUFFER_BLOCK_SIZE)).2 with
        curPtr := c.make BUFFER_BLOCK_SIZE + c.size, curRemain := BUFFER_BLOCK_SIZE - c.size },
      ⟨c.make BUFFER_BLOCK_SIZE, c.size⟩ :: s.results⟩ := by
  obtain ⟨hblocks, hbounds, husage⟩ := h.allocateNewBlock hp hend hfresh
  have hroom : c.size < BUFFER_BLOCK_SIZE := by
    unfold LARGE_BLOCK_SIZE at hsmall
    unfold BUFFER_BLOCK_SIZE
    omega
  have hrest : BUFFER_BLOCK_SIZE - c.size ≠ 0 := by omega
  refine ⟨?_, hblocks, hbounds, husage⟩
  have hresults := h.parted.sublist (List.sublist_append_right _ _)
  have hnew := hresults.obtained (r := ⟨⟨c.make BUFFER_BLOCK_SIZE, BUFFER_BLOCK_SIZE⟩, 0⟩)
    (Nat.zero_le _) ?_
  · simp only [rest, if_neg hrest, List.singleton_append]
    exact (hnew.reregion (blockRegions_append _ _).symm).carve hroom.le
  · intro q hq
    obtain ⟨b, hb, rfl⟩ := List.mem_map.mp hq
    exact hfresh b hb

/-- `allocate_fallback` keeps the blocks apart, wherever `new` has put the new one. -/
theorem Shared.fallback (h : s.Shared)
    (hnew : 0 < c.make (BufferPool.blockSize c.size) ∧
      c.make (BufferPool.blockSize c.size) + BufferPool.blockSize c.size ≤ 2 ^ 64 ∧
      ∀ q ∈ s.pool.bufferPool, Extent.Apart
        ⟨c.make (BufferPool.blockSize c.size), BufferPool.blockSize c.size⟩ q) :
    Shared ⟨(s.pool.allocateFallback c.size c.make).2,
      ⟨(s.pool.allocateFallback c.size c.make).1, c.size⟩ :: s.results⟩ := by
  unfold BufferPool.allocateFallback
  by_cases hlarge : c.size ≥ LARGE_BLOCK_SIZE
  · rw [BufferPool.blockSize, if_pos hlarge] at hnew
    rw [if_pos hlarge]
    exact h.large hnew.1 hnew.2.1 hnew.2.2
  · rw [BufferPool.blockSize, if_neg hlarge] at hnew
    rw [if_neg hlarge]
    exact h.renewed (not_le.mp hlarge) hnew.1 hnew.2.1 hnew.2.2

/-- A new current block is not used up. -/
theorem Sound.fallback_unset (h : s.Sound) :
    (s.pool.allocateFallback c.size c.make).2.curRemain = 0 →
      (s.pool.allocateFallback c.size c.make).2.curPtr = 0 := by
  unfold BufferPool.allocateFallback
  by_cases hlarge : c.size ≥ LARGE_BLOCK_SIZE
  · rw [if_pos hlarge]
    exact h.unset
  · rw [if_neg hlarge]
    intro hzero
    have hrest : BUFFER_BLOCK_SIZE - c.size = 0 := hzero
    unfold LARGE_BLOCK_SIZE at hlarge
    unfold BUFFER_BLOCK_SIZE at hrest
    omega

theorem sound_step (h : s.Sound) (hstep : s.step c = some t) : t.Sound := by
  unfold step at hstep
  split_ifs at hstep with hguard
  obtain ⟨hsize, hfresh⟩ := hguard
  rw [Option.some.injEq] at hstep
  rw [← hstep]
  unfold BufferPool.allocate
  by_cases hroom : s.pool.curRemain > c.size
  · rw [if_pos hroom]
    exact h.taken hsize hroom
  · rw [if_neg hroom]
    have hshared := h.shared.fallback (hfresh (not_lt.mp hroom))
    exact ⟨hshared.parted, hshared.blocks, hshared.bounds, hshared.usage, h.fallback_unset⟩

/-- Whatever is asked for, and wherever `new` puts the blocks, the results are disjoint. -/
theorem allocate_disjoint (s : Allocation) (h : Reachable step (fun _ _ => True) start s) :
    s.Disjoint := by
  have hsound : s.Sound := by
    apply Reachable.invariant Sound sound_start _ h
    intro s c t hs _ hstep
    exact sound_step hs hstep
  exact hsound.disjoint

/-- A request for all that is left of the first block gets a block of its own; the first one goes
on. -/
theorem allocate_disjoint_four : ∃ s,
    runIf step (fun _ _ => True) start [⟨1000, fun _ => 4096⟩, ⟨3096, fun _ => 8192⟩,
      ⟨1023, fun _ => 0⟩, ⟨100, fun _ => 0⟩] = some s ∧
    s.results = [⟨6119, 100⟩, ⟨5096, 1023⟩, ⟨8192, 3096⟩, ⟨4096, 1000⟩] ∧ s.Disjoint := by
  obtain ⟨s, hs, hresults⟩ : ∃ s, runIf step (fun _ _ => True) start [⟨1000, fun _ => 4096⟩,
      ⟨3096, fun _ => 8192⟩, ⟨1023, fun _ => 0⟩, ⟨100, fun _ => 0⟩] = some s ∧
      s.results = [⟨6119, 100⟩, ⟨5096, 1023⟩, ⟨8192, 3096⟩, ⟨4096, 1000⟩] := ⟨_, rfl, rfl⟩
  exact ⟨s, hs, hresults, allocate_disjoint s (.of_runIf .init hs)⟩

end Allocation

end MgRaffle.Utils
