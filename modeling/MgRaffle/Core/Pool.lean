import MgRaffle.Library.Extents
import MgRaffle.Library.Stepping

open Extents Stepping

namespace MgRaffle.Core

def MG_PAGESIZE : ℕ := 4 * 1024

/-- `sizeof(mg_pool)`, `sizeof(mg_small_block)` and `sizeof(mg_large_block)` with pointers and a
`size_t` of eight bytes and an `int` of four. -/
def sizeofPool : ℕ := 48

def sizeofSmallBlock : ℕ := 48

def sizeofLargeBlock : ℕ := 32

def MG_MAX_ALLOC_FROM_POOL : ℕ := MG_PAGESIZE - 1 - sizeofSmallBlock

structure MgLargeBlock where
  head : ℕ
  buf : ℕ
  deriving Repr, DecidableEq

/-- The list node `_l` is the first member, so its address and the block's is `head`. -/
structure MgSmallBlock where
  head : ℕ
  last : ℕ
  endPtr : ℕ
  failed : ℤ
  deriving Repr, DecidableEq

/-- The lists from the node behind their head on, `current` the address of a node of `small` or of
its head. -/
structure MgPool where
  addr : ℕ
  max : ℕ
  current : ℕ
  large : List MgLargeBlock
  small : List MgSmallBlock
  deriving Repr, DecidableEq

/-- `&pool->_small`, behind `_max`, `_current` and `_large`. -/
def MgPool.smallHead (pool : MgPool) : ℕ := pool.addr + 32

def mgCreatePool (size : ℕ) (malloc : ℕ → Option ℕ) : Option MgPool :=
  (malloc sizeofPool).map fun p =>
    { addr := p
      max := if size < MG_MAX_ALLOC_FROM_POOL then size else MG_MAX_ALLOC_FROM_POOL
      current := p + 32
      large := []
      small := [] }

/-- What a call returns, the pool after it and the region it got from `malloc`. -/
structure Palloc where
  result : Option ℕ
  pool : MgPool
  obtained : Option Region
  deriving Repr, DecidableEq

/-- `size + sizeof(mg_large_block)` is a `size_t`. -/
def largeRequest (size : ℕ) : ℕ := (size + sizeofLargeBlock) % 2 ^ 64

def mgPallocLarge (pool : MgPool) (size : ℕ) (malloc : ℕ → Option ℕ) : Palloc :=
  match malloc (largeRequest size) with
  | none => ⟨none, pool, none⟩
  | some p =>
    let large : MgLargeBlock := ⟨p, p + sizeofLargeBlock⟩
    ⟨some large.buf, { pool with large := large :: pool.large },
      some ⟨⟨p, largeRequest size⟩, sizeofLargeBlock⟩⟩

/-- `(mg_size_t)(s->_end - m)` with `m` the block's `_last`. -/
def MgSmallBlock.room (s : MgSmallBlock) : ℕ := (((s.endPtr : ℤ) - s.last) % 2 ^ 64).toNat

/-- The first block of the list with room for `size` bytes gives them. -/
def takeSpace (size : ℕ) : List MgSmallBlock → Option (ℕ × List MgSmallBlock)
  | [] => none
  | s :: rest =>
    if s.room ≥ size then some (s.last, { s with last := s.last + size } :: rest)
    else (takeSpace size rest).map fun (m, rest) => (m, s :: rest)

namespace MgPool

/-- The nodes before `_current`, and those from it on. -/
def passed (pool : MgPool) : List MgSmallBlock := pool.small.takeWhile (·.head ≠ pool.current)

def ahead (pool : MgPool) : List MgSmallBlock := pool.small.dropWhile (·.head ≠ pool.current)

/-- The `while` loop: from `_current` to the end of the list, so not at all from its head. -/
def search (pool : MgPool) (size : ℕ) : Option (ℕ × MgPool) :=
  if pool.current = pool.smallHead then none
  else (takeSpace size pool.ahead).map fun (m, l) => (m, { pool with small := pool.passed ++ l })

/-- The turns of the `for` loop at nodes that are blocks: all but the last one of the list. -/
def countFailed : ℕ → List MgSmallBlock → ℕ × List MgSmallBlock
  | current, s :: n :: rest =>
    let (current, l) := countFailed (if s.failed > 4 then n.head else current) (n :: rest)
    (current, { s with failed := s.failed + 1 } :: l)
  | current, l => (current, l)

/-- The `for` loop. From the list's head its first turn is at the head itself: what it takes there
for `_failed` lies behind the pool and reads as `stray`. -/
def countAhead (pool : MgPool) (stray : ℤ) : MgPool :=
  if pool.current = pool.smallHead then
    match pool.small with
    | [] => pool
    | first :: _ =>
      let (current, small) :=
        countFailed (if stray > 4 then first.head else pool.current) pool.small
      { pool with current := current, small := small }
  else
    let (current, l) := countFailed pool.current pool.ahead
    { pool with current := current, small := pool.passed ++ l }

end MgPool

/-- `MG_LIST_PUSH_BACK` inserts right behind the head. -/
def mgPallocSmall (pool : MgPool) (size : ℕ) (malloc : ℕ → Option ℕ) (stray : ℤ) : Palloc :=
  match pool.search size with
  | some (m, pool) => ⟨some m, pool, none⟩
  | none =>
    match malloc MG_PAGESIZE with
    | none => ⟨none, pool, none⟩
    | some m =>
      let bl : MgSmallBlock :=
        ⟨m, m + sizeofSmallBlock + size, m + MG_PAGESIZE - 1, 0⟩
      let pool := pool.countAhead stray
      ⟨some (m + sizeofSmallBlock), { pool with small := bl :: pool.small },
        some ⟨⟨m, MG_PAGESIZE⟩, sizeofSmallBlock⟩⟩

def mgPalloc (pool : MgPool) (size : ℕ) (malloc : ℕ → Option ℕ) (stray : ℤ) : Palloc :=
  if size ≤ pool.max then mgPallocSmall pool size malloc stray
  else mgPallocLarge pool size malloc

namespace MgPool

/-- The `int` that the loop increments when it takes the list's head for a block. -/
def strayCounter (pool : MgPool) : Extent := ⟨pool.smallHead + 40, 4⟩

/-- `_last`, `_end` and `_failed` of the block at `b`. -/
def blockFields (b : ℕ) : List Extent := [⟨b + 24, 8⟩, ⟨b + 32, 8⟩, ⟨b + 40, 4⟩]

/-- `_next` of the block at `b`. -/
def nextField (b : ℕ) : Extent := ⟨b + 8, 8⟩

/-- Where a call for `size` bytes increments the stray counter, it is no field of a block that the
pool reads later: none of the new block (whose `_next` is set afterwards) and none of the others. -/
def Spared (pool : MgPool) (size : ℕ) (malloc : ℕ → Option ℕ) : Prop :=
  size ≤ pool.max → pool.current = pool.smallHead → pool.small ≠ [] →
    ∀ m ∈ malloc MG_PAGESIZE,
      (∀ b ∈ m :: pool.small.map (·.head), ∀ f ∈ blockFields b, f.Apart pool.strayCounter) ∧
      ∀ b ∈ pool.small.map (·.head), (nextField b).Apart pool.strayCounter

instance (pool : MgPool) (size : ℕ) (malloc : ℕ → Option ℕ) :
    Decidable (pool.Spared size malloc) := by
  unfold Spared
  infer_instance

end MgPool

/-- A call with the answer of `malloc`, what the stray counter reads as, and what becomes of the call
where the increment damages a block. -/
structure Call where
  size : ℕ
  malloc : ℕ → Option ℕ
  stray : ℤ
  damaged : Palloc

/-- The pool, the regions it has got and the bytes it has handed out. -/
structure Use where
  pool : MgPool
  regions : List Region
  results : List Extent
  deriving Repr, DecidableEq

namespace Use

/-- The pool's own region holds nothing but the pool. -/
def start (pool : MgPool) : Use := ⟨pool, [⟨⟨pool.addr, sizeofPool⟩, sizeofPool⟩], []⟩

def outcome (s : Use) (c : Call) : Palloc :=
  if s.pool.Spared c.size c.malloc then mgPalloc s.pool c.size c.malloc c.stray else c.damaged

/-- A region from `malloc` is apart from all others. -/
def Fresh (s : Use) (o : Palloc) : Prop :=
  ∀ r ∈ o.obtained, ∀ q ∈ s.regions, r.toExtent.Apart q.toExtent

instance (s : Use) (o : Palloc) : Decidable (s.Fresh o) := by
  unfold Fresh
  infer_instance

def step (s : Use) (c : Call) : Option Use :=
  let o := s.outcome c
  if c.size < 2 ^ 64 ∧ s.Fresh o then
    some ⟨o.pool, o.obtained.toList ++ s.regions,
      (o.result.toList.map fun p => ⟨p, c.size⟩) ++ s.results⟩
  else none

/-- The sum in `mg_palloc_large` does not wrap around, and the stray counter is no field of a
block. -/
def Careful (s : Use) (c : Call) : Prop :=
  (s.pool.max < c.size → c.size + sizeofLargeBlock < 2 ^ 64) ∧ s.pool.Spared c.size c.malloc

instance (s : Use) (c : Call) : Decidable (s.Careful c) := by
  unfold Careful
  infer_instance

/-- Every result lies behind the header of one region, and any two are apart. -/
def Lent (s : Use) : Prop :=
  (∀ e ∈ s.results, ∃ r ∈ s.regions, e.Inside r.payload) ∧ s.results.Pairwise Extent.Apart

end Use

namespace MgSmallBlock

/-- The bytes that a block can still give. -/
def free (s : MgSmallBlock) : Extent := ⟨s.last, s.endPtr - s.last⟩

def Roomy (s : MgSmallBlock) : Prop := s.last ≤ s.endPtr ∧ s.endPtr ≤ s.last + MG_PAGESIZE

theorem room_eq {s : MgSmallBlock} (h : s.Roomy) : s.room = s.free.size := by
  obtain ⟨hle, hsize⟩ := h
  unfold MG_PAGESIZE at hsize
  unfold room free
  dsimp only
  omega

end MgSmallBlock

theorem takeSpace_eq_some {size m : ℕ} {l l' : List MgSmallBlock}
    (h : takeSpace size l = some (m, l')) : ∃ l₁ s l₂, l = l₁ ++ s :: l₂ ∧ m = s.last ∧
      size ≤ s.room ∧ l' = l₁ ++ { s with last := s.last + size } :: l₂ := by
  induction l generalizing l' with
  | nil => cases h
  | cons b rest ih =>
    rw [takeSpace] at h
    split_ifs at h with hroom
    · simp only [Option.some.injEq, Prod.mk.injEq] at h
      exact ⟨[], b, rest, rfl, h.1.symm, hroom, h.2.symm⟩
    · obtain ⟨⟨m', tail⟩, htail, heq⟩ := Option.map_eq_some_iff.mp h
      simp only [Prod.mk.injEq] at heq
      obtain ⟨rfl, rfl⟩ := heq
      obtain ⟨l₁, s, l₂, rfl, hm, hsize, rfl⟩ := ih htail
      exact ⟨b :: l₁, s, l₂, rfl, hm, hsize, rfl⟩

namespace MgPool

theorem passed_append_ahead (pool : MgPool) : pool.passed ++ pool.ahead = pool.small :=
  List.takeWhile_append_dropWhile

/-- A search that succeeds moves the `_last` of one block. -/
theorem search_eq_some {pool pool' : MgPool} {size m : ℕ} (h : pool.search size = some (m, pool')) :
    ∃ l₁ s l₂, pool.small = l₁ ++ s :: l₂ ∧ m = s.last ∧ size ≤ s.room ∧
      pool' = { pool with small := l₁ ++ { s with last := s.last + size } :: l₂ } := by
  unfold search at h
  split_ifs at h with hhead
  obtain ⟨⟨m', l⟩, hl, heq⟩ := Option.map_eq_some_iff.mp h
  simp only [Prod.mk.injEq] at heq
  obtain ⟨rfl, rfl⟩ := heq
  obtain ⟨l₁, s, l₂, hahead, hm, hsize, rfl⟩ := takeSpace_eq_some hl
  refine ⟨pool.passed ++ l₁, s, l₂, ?_, hm, hsize, ?_⟩
  · rw [← pool.passed_append_ahead, hahead, List.append_assoc]
  · rw [List.append_assoc]

section Counting

variable {α : Type*} {f : MgSmallBlock → α} (hf : ∀ b n, f { b with failed := n } = f b)

include hf

/-- The counting changes nothing but the counters. -/
theorem countFailed_map (current : ℕ) (l : List MgSmallBlock) :
    (countFailed current l).2.map f = l.map f := by
  induction l generalizing current with
  | nil => rfl
  | cons s l ih =>
    cases l with
    | nil => rfl
    | cons n rest =>
      simp only [countFailed, List.map_cons, hf, List.cons.injEq, true_and]
      exact ih _

theorem countAhead_map (pool : MgPool) (stray : ℤ) :
    (pool.countAhead stray).small.map f = pool.small.map f := by
  unfold countAhead
  by_cases hhead : pool.current = pool.smallHead
  · rw [if_pos hhead]
    cases hs : pool.small with
    | nil => rw [hs]
    | cons first rest => exact countFailed_map hf _ _
  · rw [if_neg hhead]
    dsimp only
    rw [List.map_append, countFailed_map hf, ← List.map_append, passed_append_ahead]

end Counting

/-- The counting moves `_current` only to a block that it meets. -/
theorem countFailed_current (current : ℕ) (l : List MgSmallBlock) :
    (countFailed current l).1 ∈ current :: l.map (·.head) := by
  induction l generalizing current with
  | nil => exact List.mem_cons_self ..
  | cons s l ih =>
    cases l with
    | nil => exact List.mem_cons_self ..
    | cons n rest =>
      rw [countFailed]
      have hmem := ih (if s.failed > 4 then n.head else current)
      rw [List.map_cons, List.mem_cons] at hmem ⊢
      rcases hmem with hmem | hmem
      · dsimp only
        rw [hmem]
        split_ifs
        · exact .inr (List.mem_cons_of_mem _ (List.mem_cons_self ..))
        · exact .inl rfl
      · exact .inr (List.mem_cons_of_mem _ hmem)

theorem countAhead_max (pool : MgPool) (stray : ℤ) : (pool.countAhead stray).max = pool.max := by
  unfold countAhead
  by_cases hhead : pool.current = pool.smallHead
  · rw [if_pos hhead]
    cases pool.small <;> rfl
  · rw [if_neg hhead]

end MgPool

namespace Use

/-- The free bytes of the blocks and the results are apart from each other, each inside a region of
the pool. -/
structure Sound (s : Use) : Prop where
  max : s.pool.max ≤ MG_MAX_ALLOC_FROM_POOL
  roomy : ∀ b ∈ s.pool.small, b.Roomy
  parted : Parted s.regions (s.pool.small.map (·.free) ++ s.results)

variable {s t : Use} {c : Call}

theorem Sound.lent (h : s.Sound) : s.Lent :=
  ⟨fun e he => h.parted.inside e (List.mem_append_right _ he),
    (List.pairwise_append.mp h.parted.apart).2.1⟩

theorem sound_start {size : ℕ} {malloc : ℕ → Option ℕ} {pool : MgPool}
    (h : mgCreatePool size malloc = some pool) : (start pool).Sound := by
  obtain ⟨p, -, rfl⟩ := Option.map_eq_some_iff.mp h
  refine ⟨?_, (fun b hb => nomatch hb), ⟨?_, List.Pairwise.nil, (fun e he => nomatch he)⟩⟩
  · dsimp only [start]
    split_ifs with hlt
    · exact hlt.le
    · exact le_rfl
  · intro r hr
    rw [List.mem_singleton.mp hr]

/-- A block that has room gives its next bytes. -/
theorem Sound.taken (h : s.Sound) {size : ℕ} {l₁ l₂ : List MgSmallBlock} {b : MgSmallBlock}
    (hsmall : s.pool.small = l₁ ++ b :: l₂) (hsize : size ≤ b.room) :
    Sound ⟨{ s.pool with small := l₁ ++ { b with last := b.last + size } :: l₂ }, s.regions,
      ⟨b.last, size⟩ :: s.results⟩ := by
  have hroomy := h.roomy
  rw [hsmall] at hroomy
  have hb : b.Roomy := hroomy b (by simp)
  rw [MgSmallBlock.room_eq hb] at hsize
  have hsize' : size ≤ b.endPtr - b.last := hsize
  refine ⟨h.max, ?_, ?_⟩
  · intro x hx
    rcases List.mem_append.mp hx with hx | hx
    · exact hroomy x (List.mem_append_left _ hx)
    rcases List.mem_cons.mp hx with rfl | hx
    · unfold MgSmallBlock.Roomy at hb ⊢
      dsimp only
      omega
    · exact hroomy x (List.mem_append_right _ (List.mem_cons_of_mem _ hx))
  · have hparted := h.parted
    rw [hsmall, List.map_append, List.map_cons, List.append_assoc, List.cons_append] at hparted
    have hcut := (hparted.perm List.perm_middle).carve hsize
    have hfree : MgSmallBlock.free { b with last := b.last + size } =
        ⟨b.free.start + size, b.free.size - size⟩ := by
      simp only [MgSmallBlock.free, Extent.mk.injEq, true_and]
      omega
    refine hcut.perm ?_
    rw [List.map_append, List.map_cons, List.append_assoc, List.cons_append, hfree]
    refine List.Perm.trans ?_ List.perm_middle.symm
    refine List.Perm.cons _ ?_
    rw [← List.append_assoc, ← List.append_assoc]
    exact List.perm_middle.symm

/-- A new block gives the bytes behind its header. -/
theorem Sound.paged (h : s.Sound) {size m : ℕ} (hsize : size ≤ s.pool.max)
    (hfresh : ∀ q ∈ s.regions, Extent.Apart ⟨m, MG_PAGESIZE⟩ q.toExtent) (stray : ℤ) :
    Sound ⟨{ s.pool.countAhead stray with
        small := ⟨m, m + sizeofSmallBlock + size, m + MG_PAGESIZE - 1, 0⟩ ::
          (s.pool.countAhead stray).small },
      ⟨⟨m, MG_PAGESIZE⟩, sizeofSmallBlock⟩ :: s.regions,
      ⟨m + sizeofSmallBlock, size⟩ :: s.results⟩ := by
  have hmax := hsize.trans h.max
  unfold MG_MAX_ALLOC_FROM_POOL at hmax
  have hspace : sizeofSmallBlock + size + 1 ≤ MG_PAGESIZE := by
    unfold sizeofSmallBlock MG_PAGESIZE at hmax ⊢
    omega
  have hkept := MgPool.countAhead_map (f := fun b => b.free) (fun _ _ => rfl) s.pool stray
  have hroomy := MgPool.countAhead_map (f := fun b => b.Roomy) (fun _ _ => rfl) s.pool stray
  refine ⟨?_, ?_, ?_⟩
  · exact (s.pool.countAhead_max stray).trans_le h.max
  · have hall : ∀ q ∈ s.pool.small.map fun b => b.Roomy, q := by
      intro q hq
      obtain ⟨b, hb, rfl⟩ := List.mem_map.mp hq
      exact h.roomy b hb
    rw [← hroomy] at hall
    intro b hb
    rcases List.mem_cons.mp hb with rfl | hb
    · unfold MgSmallBlock.Roomy
      dsimp only
      omega
    · exact hall _ (List.mem_map_of_mem hb)
  · have hnew := h.parted.obtained (r := ⟨⟨m, MG_PAGESIZE⟩, sizeofSmallBlock⟩)
      (by dsimp only; omega) hfresh
    have hcut := hnew.carve (k := size) (by dsimp only [Region.payload]; omega)
    -- the last byte of the page is never given
    have hlast : Extent.Inside ⟨m + sizeofSmallBlock + size,
        m + MG_PAGESIZE - 1 - (m + sizeofSmallBlock + size)⟩
        ⟨m + sizeofSmallBlock + size, MG_PAGESIZE - sizeofSmallBlock - size⟩ := by
      unfold Extent.Inside
      dsimp only
      omega
    refine (hcut.shrink hlast).perm ?_
    rw [List.map_cons, hkept, List.cons_append]
    exact List.Perm.cons _ List.perm_middle.symm

/-- A large block is its own region. -/
theorem Sound.enlarged (h : s.Sound) {size p : ℕ} (hsize : size + sizeofLargeBlock < 2 ^ 64)
    (hfresh : ∀ q ∈ s.regions, Extent.Apart ⟨p, largeRequest size⟩ q.toExtent)
    (large : List MgLargeBlock) :
    Sound ⟨{ s.pool with large := large },
      ⟨⟨p, largeRequest size⟩, sizeofLargeBlock⟩ :: s.regions,
      ⟨p + sizeofLargeBlock, size⟩ :: s.results⟩ := by
  have hrequest : largeRequest size = size + sizeofLargeBlock := Nat.mod_eq_of_lt hsize
  have hfits : sizeofLargeBlock ≤ largeRequest size := by omega
  refine ⟨h.max, h.roomy, ?_⟩
  have hnew := h.parted.obtained (r := ⟨⟨p, largeRequest size⟩, sizeofLargeBlock⟩) hfits hfresh
  have hpayload : Region.payload ⟨⟨p, largeRequest size⟩, sizeofLargeBlock⟩ =
      ⟨p + sizeofLargeBlock, size⟩ := by
    simp only [Region.payload, hrequest, Nat.add_sub_cancel]
  rw [hpayload] at hnew
  exact hnew.perm List.perm_middle.symm

theorem sound_step (h : s.Sound) (hc : s.Careful c) (hstep : s.step c = some t) : t.Sound := by
  obtain ⟨hlarge, hspared⟩ := hc
  rw [step, outcome, if_pos hspared] at hstep
  split_ifs at hstep with hguard
  obtain ⟨-, hfresh⟩ := hguard
  rw [Option.some.injEq] at hstep
  rw [← hstep]
  unfold mgPalloc at hfresh ⊢
  by_cases hle : c.size ≤ s.pool.max
  · simp only [if_pos hle] at hfresh ⊢
    unfold mgPallocSmall at hfresh ⊢
    cases hsearch : s.pool.search c.size with
    | some found =>
      obtain ⟨m, pool⟩ := found
      obtain ⟨l₁, b, l₂, hsmall, rfl, hroom, rfl⟩ := MgPool.search_eq_some hsearch
      exact h.taken hsmall hroom
    | none =>
      simp only [hsearch] at hfresh
      cases hm : c.malloc MG_PAGESIZE with
      | none => exact h
      | some m =>
        simp only [hm] at hfresh
        exact h.paged hle (hfresh _ rfl) c.stray
  · simp only [if_neg hle] at hfresh ⊢
    unfold mgPallocLarge at hfresh ⊢
    cases hm : c.malloc (largeRequest c.size) with
    | none => exact h
    | some p =>
      simp only [hm] at hfresh
      exact h.enlarged (hlarge (by omega)) (hfresh _ rfl) _

/-- Whatever `malloc` answers, the results of a pool are apart from each other and inside its
regions, as long as the calls are careful. -/
theorem pool_lends (size : ℕ) (malloc : ℕ → Option ℕ) (pool : MgPool)
    (hpool : mgCreatePool size malloc = some pool) (s : Use)
    (h : Reachable step Careful (start pool) s) : s.Lent := by
  have hsound : s.Sound := by
    apply Reachable.invariant Sound (sound_start hpool) _ h
    intro s c t hs hc hstep
    exact sound_step hs hc hstep
  exact hsound.lent

/-- A pool for small blocks of up to 100 bytes: two pages, and one large block. -/
theorem pool_lends_three : ∃ s,
    runIf step Careful (start ⟨1000, 100, 1032, [], []⟩)
      [⟨60, fun _ => some 4096, 0, ⟨none, ⟨0, 0, 0, [], []⟩, none⟩⟩,
        ⟨100, fun _ => some 8192, 7, ⟨none, ⟨0, 0, 0, [], []⟩, none⟩⟩,
        ⟨100, fun _ => none, 7, ⟨none, ⟨0, 0, 0, [], []⟩, none⟩⟩,
        ⟨5000, fun _ => some 16384, 7, ⟨none, ⟨0, 0, 0, [], []⟩, none⟩⟩] = some s ∧ s.Lent := by
  obtain ⟨s, hs⟩ : ∃ s, runIf step Careful (start ⟨1000, 100, 1032, [], []⟩)
      [⟨60, fun _ => some 4096, 0, ⟨none, ⟨0, 0, 0, [], []⟩, none⟩⟩,
        ⟨100, fun _ => some 8192, 7, ⟨none, ⟨0, 0, 0, [], []⟩, none⟩⟩,
        ⟨100, fun _ => none, 7, ⟨none, ⟨0, 0, 0, [], []⟩, none⟩⟩,
        ⟨5000, fun _ => some 16384, 7, ⟨none, ⟨0, 0, 0, [], []⟩, none⟩⟩] = some s := ⟨_, rfl⟩
  exact ⟨s, hs, pool_lends 100 (fun _ => some 1000) ⟨1000, 100, 1032, [], []⟩ rfl s
    (.of_runIf .init hs)⟩

/-- A request for all but 16 of the bytes that a `size_t` can count gets a region of 16 bytes, less
than a header. -/
theorem large_request_wraps : ¬ ∀ (size : ℕ) (malloc : ℕ → Option ℕ) (pool : MgPool),
    mgCreatePool size malloc = some pool → ∀ s,
    Reachable step (fun s c => s.pool.Spared c.size c.malloc) (start pool) s → s.Lent := by
  intro h
  obtain ⟨s, hs⟩ : ∃ s, runIf step (fun s c => s.pool.Spared c.size c.malloc)
      (start ⟨1000, 100, 1032, [], []⟩)
      [⟨2 ^ 64 - 16, fun _ => some 4096, 0, ⟨none, ⟨0, 0, 0, [], []⟩, none⟩⟩] = some s := ⟨_, rfl⟩
  have hlent := (h 100 (fun _ => some 1000) _ rfl s (.of_runIf .init hs)).1
  cases hs
  revert hlent
  decide

end Use

end MgRaffle.Core
