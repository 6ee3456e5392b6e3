import MgRaffle.Utils.BufferPool

namespace MgRaffle.Utils

open Extents Stepping

/-- `sizeof(void *)`. -/
def sizeofPointer : ℕ := 8

namespace BufferPool

/-- `slot`, what is missing from `_cur_ptr` to the next multiple of `align`. -/
def slotOf (b : BufferPool) : ℕ :=
  let align := sizeofPointer
  let mod := b.curPtr &&& (align - 1)
  if mod = 0 then 0 else align - mod

/-- `needed` is a `size_t`. -/
def needed (b : BufferPool) (size : ℕ) : ℕ := (size + b.slotOf) % 2 ^ 64

/-- `none` where an assertion fails; with `NDEBUG` there are none. -/
def allocateAlign (ndebug : Bool) (size : ℕ) (make : ℕ → ℕ) (b : BufferPool) :
    Option (ℕ × BufferPool) :=
  if ndebug = false ∧ ¬ (size > 0 ∧ sizeofPointer &&& (sizeofPointer - 1) ≠ 0) then none
  else if b.needed size > b.curRemain then some (b.allocateFallback size make)
  else
    some (b.curPtr + b.slotOf, { b with
      curPtr := b.curPtr + b.needed size
      curRemain := b.curRemain - b.needed size })

theorem allocateFallback_fst (b : BufferPool) (size : ℕ) (make : ℕ → ℕ) :
    (b.allocateFallback size make).1 = make (blockSize size) := by
  unfold allocateFallback blockSize
  split_ifs <;> rfl

/-- Eight is a power of two, so the second assertion fails. -/
theorem allocateAlign_debug (b : BufferPool) (size : ℕ) (make : ℕ → ℕ) :
    b.allocateAlign false size make = none :=
  if_pos ⟨rfl, fun h => h.2 rfl⟩

theorem slotOf_eq (b : BufferPool) : b.slotOf < 8 ∧ (b.curPtr + b.slotOf) % 8 = 0 := by
  have hmod : b.curPtr &&& (sizeofPointer - 1) = b.curPtr % 8 :=
    Nat.and_two_pow_sub_one_eq_mod b.curPtr 3
  unfold slotOf
  dsimp only
  rw [hmod]
  unfold sizeofPointer
  split_ifs <;> omega

end BufferPool

/-- A call of `allocate` or of `allocate_align`. -/
inductive PoolRequest
  | allocate (c : Request)
  | allocateAlign (c : Request)

namespace Allocation

/-- A block that `allocate_align` needs is as others, and at a multiple of the size of a pointer. -/
def FreshAlign (s : Allocation) (c : Request) : Prop :=
  s.pool.needed c.size > s.pool.curRemain →
    let n := BufferPool.blockSize c.size
    (0 < c.make n ∧ c.make n + n ≤ 2 ^ 64 ∧ ∀ q ∈ s.pool.bufferPool, Extent.Apart ⟨c.make n, n⟩ q) ∧
      c.make n % sizeofPointer = 0

instance (s : Allocation) (c : Request) : Decidable (s.FreshAlign c) := by
  unfold FreshAlign
  infer_instance

/-- A request of a positive `size_t` for which `new` has a block, if one is needed. -/
def Asked (s : Allocation) (c : Request) : Prop :=
  0 < c.size ∧ c.size < 2 ^ 64 ∧ s.FreshAlign c

instance (s : Allocation) (c : Request) : Decidable (s.Asked c) := by
  unfold Asked
  infer_instance

/-- A run ends where an assertion fails. -/
def stepAny (ndebug : Bool) (s : Allocation) : PoolRequest → Option Allocation
  | .allocate c => s.step c
  | .allocateAlign c =>
    if s.Asked c then
      (s.pool.allocateAlign ndebug c.size c.make).map fun r => ⟨r.2, ⟨r.1, c.size⟩ :: s.results⟩
    else none

/-- The assertions hold, and the result is at a multiple of the size of a pointer, inside a block and
apart from all earlier results. -/
def Private (ndebug : Bool) (s : Allocation) : PoolRequest → Prop
  | .allocate _ => True
  | .allocateAlign c => s.Asked c →
    ∃ r, s.pool.allocateAlign ndebug c.size c.make = some r ∧ r.1 % sizeofPointer = 0 ∧
      (∃ b ∈ r.2.bufferPool, Extent.Inside ⟨r.1, c.size⟩ b) ∧
      ∀ e ∈ s.results, Extent.Apart ⟨r.1, c.size⟩ e

/-- The assertions are compiled out, and the padded size does not wrap around. -/
def Unchecked (ndebug : Bool) (s : Allocation) : PoolRequest → Prop
  | .allocate _ => True
  | .allocateAlign c => s.Asked c → ndebug = true ∧ c.size + s.pool.slotOf < 2 ^ 64

variable {s t : Allocation} {c : Request} {call : PoolRequest} {ndebug : Bool}

theorem shared_allocate (h : s.Shared) (hstep : s.step c = some t) : t.Shared := by
  unfold step at hstep
  split_ifs at hstep with hguard
  obtain ⟨hsize, hfresh⟩ := hguard
  rw [Option.some.injEq] at hstep
  rw [← hstep]
  unfold BufferPool.allocate
  by_cases hroom : s.pool.curRemain > c.size
  · rw [if_pos hroom]
    exact h.taken 0 hsize hroom.le
  · rw [if_neg hroom]
    exact h.fallback (hfresh (not_lt.mp hroom))

/-- Without assertions and without a wrap around, the current block or a new one gives the bytes. -/
theorem shared_allocateAlign (h : s.Shared) (hasked : s.Asked c)
    (hwrap : c.size + s.pool.slotOf < 2 ^ 64) :
    ∃ r, s.pool.allocateAlign true c.size c.make = some r ∧ r.1 % sizeofPointer = 0 ∧
      Shared ⟨r.2, ⟨r.1, c.size⟩ :: s.results⟩ := by
  obtain ⟨hsize, -, hfresh⟩ := hasked
  have hneeded : s.pool.needed c.size = c.size + s.pool.slotOf := Nat.mod_eq_of_lt hwrap
  unfold BufferPool.allocateAlign
  rw [if_neg fun hdebug => nomatch hdebug.1]
  by_cases hroom : s.pool.needed c.size > s.pool.curRemain
  · rw [if_pos hroom]
    obtain ⟨hnew, halign⟩ := hfresh hroom
    refine ⟨_, rfl, ?_, h.fallback hnew⟩
    rw [BufferPool.allocateFallback_fst]
    exact halign
  · rw [if_neg hroom, hneeded]
    refine ⟨_, rfl, s.pool.slotOf_eq.2, ?_⟩
    rw [hneeded] at hroom
    exact h.taken _ hsize (not_lt.mp hroom)

/-- Where the padded size wraps around, the result has more bytes than any block. -/
theorem not_inside_of_wrap (h : s.Shared) (hasked : s.Asked c)
    (hwrap : 2 ^ 64 ≤ c.size + s.pool.slotOf) {r : ℕ × BufferPool}
    (hr : s.pool.allocateAlign true c.size c.make = some r) :
    ¬ ∃ b ∈ r.2.bufferPool, Extent.Inside ⟨r.1, c.size⟩ b := by
  obtain ⟨-, hlt, hfresh⟩ := hasked
  obtain ⟨hslot, hmod⟩ := s.pool.slotOf_eq
  unfold BufferPool.allocateAlign at hr
  rw [if_neg fun hdebug => nomatch hdebug.1] at hr
  by_cases hroom : s.pool.needed c.size > s.pool.curRemain
  · -- no block of this size ends within the address space
    obtain ⟨⟨hpos, hend, -⟩, halign⟩ := hfresh hroom
    have hlarge : BufferPool.blockSize c.size = c.size := by
      apply if_pos
      unfold LARGE_BLOCK_SIZE
      omega
    rw [hlarge] at hpos hend halign
    unfold sizeofPointer at halign
    omega
  · rw [if_neg hroom, Option.some.injEq] at hr
    subst hr
    rintro ⟨b, hb, hin⟩
    obtain ⟨hstart, hend⟩ := h.bounds b hb
    unfold Extent.Inside at hin
    dsimp only at hin
    omega

theorem private_iff (h : s.Shared) : s.Private ndebug call ↔ s.Unchecked ndebug call := by
  cases call with
  | allocate c => exact Iff.rfl
  | allocateAlign c =>
    constructor
    · intro hprivate hasked
      obtain ⟨r, hr, -, hinside, -⟩ := hprivate hasked
      cases ndebug with
      | false =>
        rw [BufferPool.allocateAlign_debug] at hr
        cases hr
      | true =>
        refine ⟨rfl, ?_⟩
        by_contra hwrap
        exact not_inside_of_wrap h hasked (not_lt.mp hwrap) hr hinside
    · intro hunchecked hasked
      obtain ⟨rfl, hwrap⟩ := hunchecked hasked
      obtain ⟨r, hr, halign, hshared⟩ := shared_allocateAlign h hasked hwrap
      refine ⟨r, hr, halign, ?_, ?_⟩
      · obtain ⟨q, hq, hin⟩ := hshared.parted.inside ⟨r.1, c.size⟩
          (List.mem_append_right _ (List.mem_cons_self ..))
        obtain ⟨b, hb, rfl⟩ := List.mem_map.mp hq
        exact ⟨b, hb, hin⟩
      · have hpair := (List.pairwise_append.mp hshared.parted.apart).2.1
        exact (List.pairwise_cons.mp hpair).1

theorem shared_stepAny (h : s.Shared) (hcall : s.Unchecked ndebug call)
    (hstep : stepAny ndebug s call = some t) : t.Shared := by
  cases call with
  | allocate c => exact shared_allocate h hstep
  | allocateAlign c =>
    rw [stepAny, Option.ite_none_right_eq_some] at hstep
    obtain ⟨hasked, hstep⟩ := hstep
    obtain ⟨rfl, hwrap⟩ := hcall hasked
    obtain ⟨r, hr, -, hshared⟩ := shared_allocateAlign h hasked hwrap
    rw [hr, Option.map_some, Option.some.injEq] at hstep
    rw [← hstep]
    exact hshared

/-- In every run, `allocate_align` is right exactly as long as there are no assertions and the padded
size does not wrap around. -/
theorem allocateAlign_private_iff (ndebug : Bool) (calls : List PoolRequest) :
    EachCall (stepAny ndebug) (Private ndebug) start calls ↔
      EachCall (stepAny ndebug) (Unchecked ndebug) start calls := by
  apply eachCall_iff Shared
  · intro s call t hs hcall ht
    exact shared_stepAny hs hcall ht
  · intro s call hs
    exact private_iff hs
  · exact sound_start.shared

/-- The first call with assertions. -/
theorem align_assertion_fails : ¬ ∀ (ndebug : Bool) (calls : List PoolRequest),
    EachCall (stepAny ndebug) (Private ndebug) start calls := by
  intro h
  obtain ⟨r, hr, -⟩ := (h false [.allocateAlign ⟨8, fun _ => 4096⟩]).1 (by decide)
  cases hr

end Allocation

end MgRaffle.Utils
