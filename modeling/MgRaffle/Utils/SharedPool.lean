import MgRaffle.Library.SpinLock
import MgRaffle.Utils.BufferPool

namespace MgRaffle.Utils
open Extents SpinLock Stepping

/-- A call whose assertion holds. -/
structure AllocateCall extends Request where
  positive : 0 < size

/-- Where a call of `allocate` stands, between its statements. -/
inductive AllocatePos
  /-- `if(_cur_remain > size)` -/
  | test
  /-- `new char[n]` -/
  | make (n : ℕ)
  /-- `_buffer_pool.push_back` -/
  | push (n p : ℕ)
  /-- `_memory_usage.fetch_add` -/
  | count (n p : ℕ)
  /-- `_cur_ptr = allocate_new_block(BUFFER_BLOCK_SIZE)` -/
  | setPtr (p : ℕ)
  /-- `_cur_remain = BUFFER_BLOCK_SIZE` -/
  | setRemain
  /-- `char * result = _cur_ptr` -/
  | take
  /-- `_cur_ptr += size` -/
  | advance (result : ℕ)
  /-- `_cur_remain -= size` -/
  | shrink (result : ℕ)
  deriving Repr, DecidableEq

namespace BufferPool

/-- A block that `new` answers is not at the null pointer, ends within the address space and is
apart from all others. -/
def Answers (n p : ℕ) (b : BufferPool) : Prop :=
  0 < p ∧ p + n ≤ 2 ^ 64 ∧ ∀ q ∈ b.bufferPool, Extent.Apart ⟨p, n⟩ q

instance (n p : ℕ) (b : BufferPool) : Decidable (b.Answers n p) := by
  unfold Answers
  infer_instance

/-- A statement of `allocate`: it leads to the next one, or returns. -/
def statement (c : AllocateCall) (pos : AllocatePos) (b : BufferPool) :
    Option ((AllocatePos ⊕ ℕ) × BufferPool) :=
  match pos with
  | .test => some (.inl (if b.curRemain > c.size then .take else .make (blockSize c.size)), b)
  | .make n => if b.Answers n (c.make n) then some (.inl (.push n (c.make n)), b) else none
  | .push n p => some (.inl (.count n p), { b with bufferPool := b.bufferPool ++ [⟨p, n⟩] })
  | .count n p =>
    some (if c.size ≥ LARGE_BLOCK_SIZE then .inr p else .inl (.setPtr p),
      { b with memoryUsage := (b.memoryUsage + n) % 2 ^ 64 })
  | .setPtr p => some (.inl .setRemain, { b with curPtr := p })
  | .setRemain => some (.inl .take, { b with curRemain := BUFFER_BLOCK_SIZE })
  | .take => some (.inl (.advance b.curPtr), b)
  | .advance result => some (.inl (.shrink result), { b with curPtr := b.curPtr + c.size })
  | .shrink result => some (.inr result, { b with curRemain := b.curRemain - c.size })

/-- The body of `allocate` behind its `SpinLock`. -/
def allocateBody : Body AllocateCall (AllocateCall × AllocatePos) ℕ BufferPool where
  start c := (c, .test)
  turn lo b := (statement lo.1 lo.2 b).map fun r => (r.1.map (fun pos => (lo.1, pos)) id, r.2)

/-- What is left to do from a position on. -/
def rest (c : AllocateCall) : AllocatePos → BufferPool → ℕ × BufferPool
  | .test, b => b.allocate c.size c.make
  | .make n, b => if c.size ≥ LARGE_BLOCK_SIZE then b.allocateNewBlock n (c.make n)
      else taken (b.allocateNewBlock n (c.make n)).2 (c.make n) BUFFER_BLOCK_SIZE
  | .push n p, b => if c.size ≥ LARGE_BLOCK_SIZE then b.allocateNewBlock n p
      else taken (b.allocateNewBlock n p).2 p BUFFER_BLOCK_SIZE
  | .count n p, b =>
    let b := { b with memoryUsage := (b.memoryUsage + n) % 2 ^ 64 }
    if c.size ≥ LARGE_BLOCK_SIZE then (p, b) else taken b p BUFFER_BLOCK_SIZE
  | .setPtr p, b => taken b p BUFFER_BLOCK_SIZE
  | .setRemain, b => taken b b.curPtr BUFFER_BLOCK_SIZE
  | .take, b => taken b b.curPtr b.curRemain
  | .advance result, b =>
    (result, { b with curPtr := b.curPtr + c.size, curRemain := b.curRemain - c.size })
  | .shrink result, b => (result, { b with curRemain := b.curRemain - c.size })
where
  taken (b : BufferPool) (ptr remain : ℕ) : ℕ × BufferPool :=
    (ptr, { b with curPtr := ptr + c.size, curRemain := remain - c.size })

variable {c : AllocateCall} {pos : AllocatePos} {b b' : BufferPool}

/-- A statement does a part of what is left to do. -/
theorem rest_statement {r : AllocatePos ⊕ ℕ} (h : statement c pos b = some (r, b')) :
    rest c pos b = r.elim (fun pos' => rest c pos' b') fun result => (result, b') := by
  -- the test decides which way is left; all other statements go straight on
  cases pos with
  | test =>
    cases h
    by_cases hroom : b.curRemain > c.size
    · simp only [rest, allocate, rest.taken, if_pos hroom, Sum.elim_inl]
    · by_cases hlarge : c.size ≥ LARGE_BLOCK_SIZE
      · simp only [rest, allocate, allocateFallback, blockSize, if_neg hroom, if_pos hlarge,
          Sum.elim_inl]
      · simp only [rest, allocate, allocateFallback, blockSize, if_neg hroom, if_neg hlarge,
          Sum.elim_inl]
        rfl
  | make n =>
    simp only [statement] at h
    split_ifs at h
    cases h
    rfl
  | count n p =>
    cases h
    by_cases hlarge : c.size ≥ LARGE_BLOCK_SIZE <;>
      simp only [rest, hlarge, if_true, if_false, Sum.elim_inl, Sum.elim_inr]
  | push n p => cases h; rfl
  | setPtr p => cases h; rfl
  | setRemain => cases h; rfl
  | take => cases h; rfl
  | advance result => cases h; rfl
  | shrink result => cases h; rfl

/-- Up to the call of `new` the pool is as the call has found it. -/
def Asks (c : AllocateCall) (s : BufferPool) (pos : AllocatePos) (b : BufferPool) : Prop :=
  match pos with
  | .test => b = s
  | .make n => b = s ∧ n = blockSize c.size
  | _ => s.curRemain ≤ c.size → s.Answers (blockSize c.size) (c.make (blockSize c.size))

theorem asks_statement {s : BufferPool} {r : AllocatePos ⊕ ℕ} (h : statement c pos b = some (r, b'))
    (hasks : Asks c s pos b) : r.elim (fun pos' => Asks c s pos' b')
      fun _ => s.curRemain ≤ c.size → s.Answers (blockSize c.size) (c.make (blockSize c.size)) := by
  cases pos with
  | test =>
    cases h
    cases hasks
    by_cases hroom : b.curRemain > c.size
    · simp only [if_pos hroom, Sum.elim_inl, Asks]
      omega
    · simp only [if_neg hroom, Sum.elim_inl, Asks, true_and]
  | make n =>
    simp only [statement] at h
    split_ifs at h with hans
    obtain ⟨rfl, rfl⟩ := hasks
    cases h
    exact fun _ => hans
  | count n p =>
    cases h
    by_cases hlarge : c.size ≥ LARGE_BLOCK_SIZE
    · rw [if_pos hlarge]
      exact hasks
    · rw [if_neg hlarge]
      exact hasks
  | push n p => cases h; exact hasks
  | setPtr p => cases h; exact hasks
  | setRemain => cases h; exact hasks
  | take => cases h; exact hasks
  | advance result => cases h; exact hasks
  | shrink result => cases h; exact hasks

/-- No statement takes a block away. -/
theorem blocks_statement {r : AllocatePos ⊕ ℕ} (h : statement c pos b = some (r, b')) :
    b.bufferPool ⊆ b'.bufferPool := by
  cases pos with
  | make n =>
    simp only [statement] at h
    split_ifs at h
    cases h
    exact List.Subset.refl _
  | push n p =>
    cases h
    exact List.subset_append_left _ _
  | test => cases h; exact List.Subset.refl _
  | count n p => cases h; exact List.Subset.refl _
  | setPtr p => cases h; exact List.Subset.refl _
  | setRemain => cases h; exact List.Subset.refl _
  | take => cases h; exact List.Subset.refl _
  | advance result => cases h; exact List.Subset.refl _
  | shrink result => cases h; exact List.Subset.refl _

theorem turn_eq_some {lo : AllocateCall × AllocatePos} {r : (AllocateCall × AllocatePos) ⊕ ℕ}
    (h : allocateBody.turn lo b = some (r, b')) : ∃ r', statement lo.1 lo.2 b = some (r', b') ∧
      r = r'.map (fun pos => (lo.1, pos)) id := by
  obtain ⟨⟨r', b''⟩, hr, heq⟩ := Option.map_eq_some_iff.mp h
  cases heq
  exact ⟨r', hr, rfl⟩

/-- A whole call is `allocate`, and `new` has answered well. -/
theorem runs_allocate {s t : BufferPool} {result : ℕ} (h : allocateBody.Runs c s result t) :
    s.allocate c.size c.make = (result, t) ∧
      (s.curRemain ≤ c.size → s.Answers (blockSize c.size) (c.make (blockSize c.size))) := by
  have hstart : Asks c s .test s := rfl
  refine h.post
    (fun lo b => lo.1 = c ∧ rest c lo.2 b = s.allocate c.size c.make ∧ Asks c s lo.2 b)
    (fun r b => s.allocate c.size c.make = (r, b) ∧
      (s.curRemain ≤ c.size → s.Answers (blockSize c.size) (c.make (blockSize c.size)))) ?_ ?_
    ⟨rfl, rfl, hstart⟩
  · rintro ⟨c', pos⟩ b q b' ⟨rfl, hrest, hasks⟩ hturn
    obtain ⟨r', hr, hq⟩ := turn_eq_some hturn
    cases r' with
    | inl pos' =>
      cases hq
      exact ⟨rfl, by rw [← hrest, rest_statement hr]; rfl, asks_statement hr hasks⟩
    | inr result => cases hq
  · rintro ⟨c', pos⟩ b q b' ⟨rfl, hrest, hasks⟩ hturn
    obtain ⟨r', hr, hq⟩ := turn_eq_some hturn
    cases r' with
    | inl pos' => cases hq
    | inr result =>
      cases hq
      exact ⟨by rw [← hrest, rest_statement hr]; rfl, asks_statement hr hasks⟩

end BufferPool

section Threads

variable {ι : Type*} {log : List (ι × AllocateCall × ℕ)} {b : BufferPool}

/-- What the calls of a log were given, the latest first. -/
def regions (log : List (ι × AllocateCall × ℕ)) : List Extent :=
  (log.map fun e => ⟨e.2.2, e.2.1.size⟩).reverse

theorem regions_concat (log : List (ι × AllocateCall × ℕ)) (i : ι) (c : AllocateCall) (p : ℕ) :
    regions (log ++ [(i, c, p)]) = ⟨p, c.size⟩ :: regions log := by
  simp [regions]

/-- Whole calls one after another are a run of the pool. -/
theorem allocation_of_serial (h : BufferPool.allocateBody.Serial .new log b) :
    Reachable Allocation.step (fun _ _ => True) .start ⟨b, regions log⟩ := by
  induction h with
  | nil => exact .init
  | @concat log s t i c result h hrun ih =>
    obtain ⟨heq, hans⟩ := BufferPool.runs_allocate hrun
    refine .step (e := c.toRequest) ih trivial ?_
    have hfresh : (⟨s, regions log⟩ : Allocation).Fresh c.toRequest := hans
    rw [Allocation.step, if_pos ⟨c.positive, hfresh⟩]
    simp only [heq, regions_concat]

/-- However many threads allocate from the pool, and however their statements alternate, at most one
is inside at a time, no byte is given out twice, and each region lies in a block; while nobody is
inside, the rest of the current block is apart from them too. -/
theorem threads_allocate [DecidableEq ι]
    (s : System ι AllocateCall (AllocateCall × AllocatePos) ℕ BufferPool)
    (h : Reachable (System.step BufferPool.allocateBody) (fun _ _ => True) (.init .new) s) :
    (∀ i j, (s.threads i).Holds → (s.threads j).Holds → i = j) ∧
    (regions s.log).Pairwise Extent.Apart ∧
    (∀ e ∈ regions s.log, ∃ q ∈ s.shared.bufferPool, e.Inside q) ∧
    (s.flag = false → (⟨s.shared, regions s.log⟩ : Allocation).Disjoint) := by
  have hguarded := System.guarded h
  have hsound : ∀ b, BufferPool.allocateBody.Serial .new s.log b →
      (⟨b, regions s.log⟩ : Allocation).Disjoint := by
    intro b hb
    have hinv : (⟨b, regions s.log⟩ : Allocation).Sound := by
      apply Reachable.invariant Allocation.Sound Allocation.sound_start _ (allocation_of_serial hb)
      intro s c t hs _ hstep
      exact Allocation.sound_step hs hstep
    exact hinv.disjoint
  obtain ⟨u, hlog, hshared, hgoing⟩ := hguarded.serial
  -- the thread inside may have made a block, but has taken none away
  have hblocks : u.bufferPool ⊆ s.shared.bufferPool := by
    rcases hshared with heq | ⟨i, call, p, hi⟩
    · rw [heq]
      exact List.Subset.refl _
    · refine (hgoing i call p hi).keep (fun _ b => u.bufferPool ⊆ b.bufferPool) ?_
        (List.Subset.refl _)
      intro lo b lo' b' hsub hturn
      obtain ⟨r, hr, -⟩ := BufferPool.turn_eq_some hturn
      exact List.Subset.trans hsub (BufferPool.blocks_statement hr)
  refine ⟨hguarded.exclusive, (hsound u hlog).apart, fun e he => ?_,
    fun hfree => hsound _ (hguarded.shared_of_free hfree)⟩
  obtain ⟨q, hq, hin⟩ := (hsound u hlog).inside e he
  exact ⟨q, hblocks hq, hin⟩

/-- The second thread spins while the first one makes a block, and then takes its part of it. -/
def twoThreads : List (Event Bool AllocateCall) :=
  [.call true ⟨⟨100, fun _ => 4096⟩, by decide⟩, .call false ⟨⟨200, fun _ => 0⟩, by decide⟩,
    .testAndSet true, .turn true, .testAndSet false, .turn true, .turn true, .turn true,
    .testAndSet false, .turn true, .turn true, .turn true, .turn true, .turn true, .clear true,
    .testAndSet false, .turn false, .turn false, .turn false, .turn false]

theorem threads_allocate_two :
    ∃ s : System Bool AllocateCall (AllocateCall × AllocatePos) ℕ BufferPool,
    runIf (System.step BufferPool.allocateBody) (fun _ _ => True) (.init .new) twoThreads = some s ∧
    regions s.log = [⟨4196, 200⟩, ⟨4096, 100⟩] ∧ (regions s.log).Pairwise Extent.Apart ∧
    ∀ e ∈ regions s.log, ∃ q ∈ s.shared.bufferPool, e.Inside q := by
  obtain ⟨s, hs, hlog⟩ : ∃ s, runIf (System.step BufferPool.allocateBody) (fun _ _ => True)
      (.init .new) twoThreads = some s ∧ regions s.log = [⟨4196, 200⟩, ⟨4096, 100⟩] := ⟨_, rfl, rfl⟩
  obtain ⟨-, hapart, hinside, -⟩ := threads_allocate s (.of_runIf .init hs)
  exact ⟨s, hs, hlog, hapart, hinside⟩

end Threads

end MgRaffle.Utils
