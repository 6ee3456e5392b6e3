import Mathlib.Data.List.TakeWhile
import MgRaffle.Core.List
import MgRaffle.Core.Pool
import MgRaffle.Library.Looping

open Extents LinkRing Looping Stepping

namespace MgRaffle.Core

/-- The fields of the pool, and those of every block and list node by the address of the node, the
first member of its block. -/
structure PoolMemory where
  max : ℕ
  current : ℕ
  links : Links ℕ
  headPtr : ℕ → ℕ
  buf : ℕ → ℕ
  last : ℕ → ℕ
  endPtr : ℕ → ℕ
  failed : ℕ → ℤ

/-- `&pool->_large` and `&pool->_small`. -/
def largeOf (pool : ℕ) : ℕ := pool + 16

def smallOf (pool : ℕ) : ℕ := pool + 32

namespace PoolMemory

/-- What `MG_STRUCT_POINT` makes of a node. -/
def smallBlock (m : PoolMemory) (p : ℕ) : MgSmallBlock := ⟨p, m.last p, m.endPtr p, m.failed p⟩

def largeBlock (m : PoolMemory) (p : ℕ) : MgLargeBlock := ⟨p, m.buf p⟩

/-- The fields of a new pool. -/
def newPool (m : PoolMemory) (p size : ℕ) : PoolMemory :=
  { m with
    max := if size < MG_MAX_ALLOC_FROM_POOL then size else MG_MAX_ALLOC_FROM_POOL
    current := smallOf p
    links := initList (initList m.links (largeOf p)) (smallOf p) }

def mgCreatePool (m : PoolMemory) (size : ℕ) (malloc : ℕ → Option ℕ) : Option (ℕ × PoolMemory) :=
  (malloc sizeofPool).map fun p => (p, m.newPool p size)

/-- What a call returns, the memory after it, the block it got from `malloc` and the nodes that it
took for small blocks. -/
structure Outcome where
  result : Option ℕ
  memory : PoolMemory
  obtained : Option ℕ
  converted : List ℕ

def mgPallocLarge (m : PoolMemory) (pool size : ℕ) (malloc : ℕ → Option ℕ) : Outcome :=
  match malloc (largeRequest size) with
  | none => ⟨none, m, none, []⟩
  | some p =>
    let m := { m with headPtr := Function.update m.headPtr p p }
    let m := { m with buf := Function.update m.buf p (p + sizeofLargeBlock) }
    let m := { m with links := insertListEnd m.links p (largeOf pool) }
    ⟨some (m.buf p), m, some p, []⟩

/-- A walk along the list: the node it is at, and those that it has taken for blocks. -/
structure Walk where
  memory : PoolMemory
  p : ℕ
  converted : List ℕ

/-- The block at `p` gives its next `size` bytes. -/
def give (m : PoolMemory) (p size : ℕ) : PoolMemory :=
  { m with last := Function.update m.last p (m.last p + size) }

/-- One turn of the `while` loop, which ends at the head of the list or with a block. -/
def searchTurn (pool size : ℕ) (w : Walk) : Option (Walk ⊕ (Option ℕ × Walk)) :=
  if w.p ≠ 0 ∧ w.p ≠ smallOf pool then
    let s := w.memory.smallBlock w.p
    let converted := w.converted ++ [w.p]
    if s.room ≥ size then
      some (.inr (some s.last, ⟨w.memory.give w.p size, w.p, converted⟩))
    else some (.inl ⟨w.memory, w.memory.links.next w.p, converted⟩)
  else some (.inr (none, w))

/-- One turn of the `for` loop. -/
def countTurn (pool : ℕ) (w : Walk) : Option (Walk ⊕ Walk) :=
  if w.memory.links.next w.p ≠ smallOf pool then
    let s := w.memory.smallBlock w.p
    let failed := Function.update w.memory.failed w.p (s.failed + 1)
    let current := if s.failed > 4 then w.memory.links.next w.p else w.memory.current
    some (.inl ⟨{ w.memory with failed := failed, current := current }, w.memory.links.next w.p,
      w.converted ++ [w.p]⟩)
  else some (.inr w)

/-- The fields of a new block. -/
def newBlock (m : PoolMemory) (a size : ℕ) : PoolMemory :=
  { m with
    headPtr := Function.update m.headPtr a a
    endPtr := Function.update m.endPtr a (a + MG_PAGESIZE - 1)
    failed := Function.update m.failed a 0
    last := Function.update m.last a (a + sizeofSmallBlock + size) }

/-- There is no outcome where a loop takes more than `fuel` turns. -/
def mgPallocSmall (m : PoolMemory) (pool size : ℕ) (malloc : ℕ → Option ℕ) (fuel : ℕ) :
    Option Outcome :=
  (loop (searchTurn pool size) fuel ⟨m, m.current, []⟩).bind fun
  | (some a, w) => some ⟨some a, w.memory, none, w.converted⟩
  | (none, w) =>
    match malloc MG_PAGESIZE with
    | none => some ⟨none, w.memory, none, w.converted⟩
    | some a =>
      let m := w.memory.newBlock a size
      (loop (countTurn pool) fuel ⟨m, m.current, w.converted⟩).map fun w =>
        ⟨some (a + sizeofSmallBlock),
          { w.memory with links := insertListEnd w.memory.links a (smallOf pool) }, some a,
          w.converted⟩

def mgPalloc (m : PoolMemory) (pool size : ℕ) (malloc : ℕ → Option ℕ) (fuel : ℕ) :
    Option Outcome :=
  if size ≤ m.max then mgPallocSmall m pool size malloc fuel
  else some (mgPallocLarge m pool size malloc)

end PoolMemory

/-- A call with the answer of `malloc`. -/
structure PoolCall where
  size : ℕ
  malloc : ℕ → Option ℕ

/-- The memory, and the blocks that `mg_palloc` has got from `malloc`, the latest first. -/
structure PoolState where
  memory : PoolMemory
  pages : List ℕ
  larges : List ℕ

namespace PoolState

def start (m : PoolMemory) (pool size : ℕ) : PoolState := ⟨m.newPool pool size, [], []⟩

/-- The walks along the list make a turn at each block at most, and one at its head. -/
def fuel (s : PoolState) : ℕ := s.pages.length + 2

def palloc (pool : ℕ) (s : PoolState) (c : PoolCall) : Option PoolMemory.Outcome :=
  s.memory.mgPalloc pool c.size c.malloc s.fuel

/-- The nodes of both lists. -/
def nodes (pool : ℕ) (s : PoolState) : List ℕ :=
  largeOf pool :: smallOf pool :: (s.pages ++ s.larges)

/-- What `malloc` answers is in no use. -/
def Fresh (pool : ℕ) (s : PoolState) (o : PoolMemory.Outcome) : Prop :=
  ∀ a ∈ o.obtained, a ≠ 0 ∧ a ∉ s.nodes pool

/-- The header of a large block fits into what `malloc` was asked for. -/
def Fitting (s : PoolState) (c : PoolCall) : Prop :=
  s.memory.max < c.size → c.size + sizeofLargeBlock < 2 ^ 64

/-- The `int` that a call increments when it takes the head of the list for a block is in no header
of a block. -/
def Spared (pool : ℕ) (s : PoolState) (o : PoolMemory.Outcome) : Prop :=
  smallOf pool ∈ o.converted →
    (∀ b ∈ o.obtained.toList ++ s.pages,
      Extent.Apart ⟨b, sizeofSmallBlock⟩ ⟨smallOf pool + 40, 4⟩) ∧
    ∀ b ∈ s.larges, Extent.Apart ⟨b, sizeofLargeBlock⟩ ⟨smallOf pool + 40, 4⟩

instance (pool : ℕ) (s : PoolState) (o : PoolMemory.Outcome) : Decidable (s.Fresh pool o) := by
  unfold Fresh
  infer_instance

instance (s : PoolState) (c : PoolCall) : Decidable (s.Fitting c) := by
  unfold Fitting
  infer_instance

instance (pool : ℕ) (s : PoolState) (o : PoolMemory.Outcome) : Decidable (s.Spared pool o) := by
  unfold Spared
  infer_instance

/-- A run ends with a call that writes over memory that is not its own. -/
def step (pool : ℕ) (s : PoolState) (c : PoolCall) : Option PoolState :=
  (s.palloc pool c).bind fun o =>
    if s.Fresh pool o ∧ s.Fitting c ∧ s.Spared pool o then
      if c.size ≤ s.memory.max then some ⟨o.memory, o.obtained.toList ++ s.pages, s.larges⟩
      else some ⟨o.memory, s.pages, o.obtained.toList ++ s.larges⟩
    else none

/-- Both lists lead through the blocks, and a block's header and its free bytes lie in its page. -/
structure Linked (pool : ℕ) (s : PoolState) : Prop where
  max : s.memory.max ≤ MG_MAX_ALLOC_FROM_POOL
  small : s.memory.links.Ring (smallOf pool) s.pages
  large : s.memory.links.Ring (largeOf pool) s.larges
  nodup : (s.nodes pool).Nodup
  nonzero : ∀ b ∈ s.pages, b ≠ 0
  heads : ∀ b ∈ s.pages ++ s.larges, s.memory.headPtr b = b
  endPtr : ∀ b ∈ s.pages, s.memory.endPtr b = b + MG_PAGESIZE - 1
  last : ∀ b ∈ s.pages, b + sizeofSmallBlock ≤ s.memory.last b ∧
    s.memory.last b ≤ s.memory.endPtr b
  current : s.memory.current ∈ smallOf pool :: s.pages

/-- The blocks from `_current` to the end of the list, none where it is the head. -/
def searched (s : PoolState) : List ℕ := s.pages.dropWhile (· ≠ s.memory.current)

/-- The nodes from `_current` to the end of the list. -/
def walked (pool : ℕ) (s : PoolState) : List ℕ :=
  (smallOf pool :: s.pages).dropWhile (· ≠ s.memory.current)

end PoolState

namespace PoolMemory

variable {m : PoolMemory} {pool size n p x : ℕ} {l : List ℕ} (seen : List ℕ)

/-- A large request takes no node for a block of the pool, and leaves `_current` as it is. -/
theorem mgPallocLarge_frame (m : PoolMemory) (pool size : ℕ) (malloc : ℕ → Option ℕ) :
    (m.mgPallocLarge pool size malloc).converted = [] ∧
      (m.mgPallocLarge pool size malloc).memory.current = m.current := by
  unfold mgPallocLarge
  cases malloc (largeRequest size) with
  | none => exact ⟨rfl, rfl⟩
  | some a => exact ⟨rfl, rfl⟩

/-- The `while` loop passes the blocks that have no room. -/
theorem search_skip (hchain : (l ++ [x]).IsChain m.links.Linked)
    (hl : ∀ b ∈ l, b ≠ 0 ∧ b ≠ smallOf pool ∧ ¬ (m.smallBlock b).room ≥ size) :
    loop (searchTurn pool size) (l.length + n) ⟨m, l.head?.getD x, seen⟩ =
      loop (searchTurn pool size) n ⟨m, x, seen ++ l⟩ := by
  induction l generalizing seen with
  | nil => simp
  | cons b rest ih =>
    obtain ⟨hzero, hhead, hroom⟩ := hl b (List.mem_cons_self ..)
    have hnext : m.links.next b = rest.head?.getD x := by
      cases rest with
      | nil => exact (List.isChain_cons_cons.mp hchain).1.1
      | cons c rest => exact (List.isChain_cons_cons.mp hchain).1.1
    have hturn : searchTurn pool size ⟨m, b, seen⟩ =
        some (.inl ⟨m, rest.head?.getD x, seen ++ [b]⟩) := by
      simp only [searchTurn, hnext]
      rw [if_pos ⟨hzero, hhead⟩, if_neg hroom]
    rw [List.head?_cons, Option.getD_some, List.length_cons, Nat.add_right_comm, loop_inl hturn,
      ih (seen ++ [b]) hchain.tail fun c hc => hl c (List.mem_cons_of_mem _ hc), List.append_assoc,
      List.singleton_append]

theorem search_none (hchain : (l ++ [smallOf pool]).IsChain m.links.Linked)
    (hl : ∀ b ∈ l, b ≠ 0 ∧ b ≠ smallOf pool ∧ ¬ (m.smallBlock b).room ≥ size)
    (hn : l.length < n) :
    loop (searchTurn pool size) n ⟨m, l.head?.getD (smallOf pool), seen⟩ =
      some (none, ⟨m, smallOf pool, seen ++ l⟩) := by
  have hturn : searchTurn pool size ⟨m, smallOf pool, seen ++ l⟩ =
      some (.inr (none, ⟨m, smallOf pool, seen ++ l⟩)) := by
    rw [searchTurn, if_neg (fun h => h.2 rfl)]
  obtain ⟨k, rfl⟩ : ∃ k, n = l.length + (k + 1) := ⟨n - l.length - 1, by omega⟩
  rw [search_skip seen hchain hl, loop_inr hturn]

theorem search_some {l₁ l₂ : List ℕ} {b : ℕ}
    (hchain : (l₁ ++ b :: l₂ ++ [smallOf pool]).IsChain m.links.Linked)
    (hl₁ : ∀ x ∈ l₁, x ≠ 0 ∧ x ≠ smallOf pool ∧ ¬ (m.smallBlock x).room ≥ size)
    (hb : b ≠ 0 ∧ b ≠ smallOf pool) (hroom : (m.smallBlock b).room ≥ size) (hn : l₁.length < n) :
    loop (searchTurn pool size) n ⟨m, (l₁ ++ b :: l₂).head?.getD (smallOf pool), seen⟩ =
      some (some (m.last b), ⟨m.give b size, b, seen ++ l₁ ++ [b]⟩) := by
  have hturn : searchTurn pool size ⟨m, b, seen ++ l₁⟩ =
      some (.inr (some (m.last b), ⟨m.give b size, b, seen ++ l₁ ++ [b]⟩)) := by
    simp only [searchTurn]
    rw [if_pos hb, if_pos hroom]
    rfl
  have hfirst : (l₁ ++ b :: l₂).head?.getD (smallOf pool) = l₁.head?.getD b := by
    cases l₁ <;> rfl
  rw [List.append_assoc, List.cons_append, List.isChain_split] at hchain
  obtain ⟨k, rfl⟩ : ∃ k, n = l₁.length + (k + 1) := ⟨n - l₁.length - 1, by omega⟩
  rw [hfirst, search_skip seen hchain.1 hl₁, loop_inr hturn]

/-- The memory after a turn of the `for` loop at `p`, with `q` behind it. -/
def counted (m : PoolMemory) (p q : ℕ) : PoolMemory :=
  { m with
    failed := Function.update m.failed p (m.failed p + 1)
    current := if m.failed p > 4 then q else m.current }

theorem countTurn_counted {q : ℕ} (hnext : m.links.next p = q) (hq : q ≠ smallOf pool) :
    countTurn pool ⟨m, p, seen⟩ = some (.inl ⟨m.counted p q, q, seen ++ [p]⟩) := by
  simp only [countTurn, hnext]
  rw [if_pos hq]
  rfl

/-- The turn changes no other block. -/
theorem map_counted {q : ℕ} (hp : p ∉ l) :
    l.map (m.counted p q).smallBlock = l.map m.smallBlock := by
  apply List.map_congr_left
  intro x hx
  have hne : x ≠ p := fun heq => hp (heq ▸ hx)
  simp only [smallBlock, counted, Function.update_of_ne hne]

/-- The `for` loop takes all nodes for blocks but the last one. -/
theorem count_run (hchain : (p :: (l ++ [smallOf pool])).IsChain m.links.Linked)
    (hnodup : (p :: l).Nodup) (hl : smallOf pool ∉ l) (hn : l.length < n) :
    ∃ c f q, loop (countTurn pool) n ⟨m, p, seen⟩ =
        some ⟨{ m with current := c, failed := f }, q, seen ++ (p :: l).dropLast⟩ ∧
      (c, (p :: l).map { m with failed := f }.smallBlock) =
        MgPool.countFailed m.current ((p :: l).map m.smallBlock) ∧
      ∀ b, b ∉ (p :: l).dropLast → f b = m.failed b := by
  induction l generalizing p m seen n with
  | nil =>
    obtain ⟨n, rfl⟩ : ∃ k, n = k + 1 := ⟨n - 1, by omega⟩
    have hturn : countTurn pool ⟨m, p, seen⟩ = some (.inr ⟨m, p, seen⟩) := by
      rw [countTurn, if_neg (fun h => h (List.isChain_cons_cons.mp hchain).1.1)]
    refine ⟨m.current, m.failed, p, ?_, rfl, fun _ _ => rfl⟩
    rw [loop_inr hturn, List.dropLast_singleton, List.append_nil]
  | cons b rest ih =>
    obtain ⟨n, rfl⟩ : ∃ k, n = k + 1 := ⟨n - 1, by omega⟩
    rw [List.cons_append, List.isChain_cons_cons] at hchain
    obtain ⟨⟨hnext, -⟩, hrest⟩ := hchain
    rw [List.nodup_cons] at hnodup
    obtain ⟨hp, hnodup⟩ := hnodup
    rw [List.mem_cons, not_or] at hl
    obtain ⟨hb, hl⟩ := hl
    rw [List.length_cons] at hn
    obtain ⟨c, f, q, hloop, hcount, hf⟩ := ih (m := m.counted p b) (n := n) (seen ++ [p]) hrest hnodup
      hl (by omega)
    refine ⟨c, f, q, ?_, ?_, ?_⟩
    · rw [loop_inl (countTurn_counted seen hnext (Ne.symm hb)), hloop, List.append_assoc,
        List.dropLast_cons_cons]
      rfl
    · have hfp : f p = m.failed p + 1 := by
        rw [hf p fun h => hp (List.mem_of_mem_dropLast h)]
        exact Function.update_self ..
      have hblock : { m with failed := f }.smallBlock p =
          { m.smallBlock p with failed := (m.smallBlock p).failed + 1 } := by
        simp only [smallBlock, hfp]
      rw [map_counted hp] at hcount
      rw [List.map_cons, hblock]
      exact congrArg (fun r => (r.1, { m.smallBlock p with failed := (m.smallBlock p).failed + 1 } ::
        r.2)) hcount
    · intro x hx
      rw [List.dropLast_cons_cons, List.mem_cons, not_or] at hx
      rw [hf x hx.2]
      exact Function.update_of_ne hx.1 ..

end PoolMemory

namespace PoolState

open PoolMemory

variable {pool : ℕ} {s t : PoolState} {c : PoolCall}

theorem not_mem_small {a : ℕ} (hnew : a ∉ s.nodes pool) : a ∉ smallOf pool :: s.pages := by
  intro hmem
  apply hnew
  simp only [nodes, List.mem_cons, List.mem_append] at hmem ⊢
  exact .inr (hmem.imp_right .inl)

theorem mem_searched {b : ℕ} (hb : b ∈ s.searched) : b ∈ s.pages :=
  (List.dropWhile_sublist _).subset hb

namespace Linked

theorem small_nodup (h : s.Linked pool) : (smallOf pool :: s.pages).Nodup := h.small.nodup

/-- A walk starts at the head of the list or at one of its blocks. -/
theorem current_cases (h : s.Linked pool) :
    (s.memory.current = smallOf pool ∧ s.searched = [] ∧ s.walked pool = smallOf pool :: s.pages) ∨
      ∃ pre post, s.pages = pre ++ s.memory.current :: post ∧
        s.searched = s.memory.current :: post ∧ s.walked pool = s.memory.current :: post := by
  have hnodup := List.nodup_cons.mp h.small_nodup
  rcases List.mem_cons.mp h.current with hhead | hpage
  · left
    refine ⟨hhead, ?_, ?_⟩
    · rw [searched, hhead, List.dropWhile_eq_nil_iff]
      intro b hb
      have hne : b ≠ smallOf pool := fun heq => hnodup.1 (heq ▸ hb)
      exact decide_eq_true hne
    · rw [walked, hhead, List.dropWhile_cons_of_neg (by simp)]
  · right
    obtain ⟨pre, post, hpages⟩ := List.append_of_mem hpage
    have hpre : ∀ b ∈ pre, decide (b ≠ s.memory.current) = true := by
      intro b hb
      have hapart := (List.nodup_append.mp (hpages ▸ hnodup.2)).2.2
      exact decide_eq_true (hapart b hb _ (List.mem_cons_self ..))
    have hdrop : s.searched = s.memory.current :: post := by
      rw [searched]
      conv_lhs => rw [hpages]
      rw [List.dropWhile_append_of_pos hpre, List.dropWhile_cons_of_neg (by simp)]
    refine ⟨pre, post, hpages, hdrop, ?_⟩
    have hne : smallOf pool ≠ s.memory.current := fun heq => hnodup.1 (heq ▸ hpage)
    have hpass : List.dropWhile (fun x => decide (x ≠ s.memory.current)) (smallOf pool :: s.pages) =
        s.searched := List.dropWhile_cons_of_pos (decide_eq_true hne)
    rw [walked, hpass, hdrop]

theorem searched_chain (h : s.Linked pool) :
    (s.searched ++ [smallOf pool]).IsChain s.memory.links.Linked ∧
      s.searched.head?.getD (smallOf pool) = s.memory.current := by
  rcases h.current_cases with ⟨hcur, hnil, -⟩ | ⟨pre, post, hpages, hpost, -⟩
  · rw [hnil]
    exact ⟨List.isChain_singleton _, hcur.symm⟩
  · rw [hpost]
    refine ⟨h.small.linked.suffix ⟨smallOf pool :: pre, ?_⟩, rfl⟩
    rw [hpages, List.append_assoc]
    rfl

theorem walked_chain (h : s.Linked pool) : ∃ rest, s.walked pool = s.memory.current :: rest ∧
    (s.memory.current :: (rest ++ [smallOf pool])).IsChain s.memory.links.Linked ∧
    (s.memory.current :: rest).Nodup ∧ smallOf pool ∉ rest ∧ rest.length ≤ s.pages.length := by
  have hnodup := h.small_nodup
  have hhead := (List.nodup_cons.mp hnodup).1
  rcases h.current_cases with ⟨hcur, -, hwalk⟩ | ⟨pre, post, hpages, -, hwalk⟩
  · rw [hcur]
    exact ⟨s.pages, hwalk, h.small.linked, hnodup, hhead, le_rfl⟩
  · refine ⟨post, hwalk, h.small.linked.suffix ⟨smallOf pool :: pre, ?_⟩, ?_, ?_, ?_⟩
    · rw [hpages, List.append_assoc]
      rfl
    · have hpost : (s.memory.current :: post).Sublist s.pages :=
        hpages ▸ List.sublist_append_right ..
      exact (List.nodup_cons.mp hnodup).2.sublist hpost
    · intro hmem
      apply hhead
      rw [hpages]
      exact List.mem_append_right _ (List.mem_cons_of_mem _ hmem)
    · rw [hpages, List.length_append, List.length_cons]
      omega

end Linked

/-- The memory after a call that has got a new page. -/
def paged (m : PoolMemory) (pool a size c : ℕ) (f : ℕ → ℤ) : PoolMemory :=
  { m.newBlock a size with
    current := c
    failed := f
    links := insertListEnd m.links a (smallOf pool) }

theorem mgPallocSmall_cases (h : s.Linked pool) (c : PoolCall) :
    (∃ l₁ b l₂, s.searched = l₁ ++ b :: l₂ ∧
      (∀ x ∈ l₁, ¬ (s.memory.smallBlock x).room ≥ c.size) ∧ (s.memory.smallBlock b).room ≥ c.size ∧
      s.memory.mgPallocSmall pool c.size c.malloc s.fuel =
        some ⟨some (s.memory.last b), s.memory.give b c.size, none, l₁ ++ [b]⟩) ∨
    ((∀ x ∈ s.searched, ¬ (s.memory.smallBlock x).room ≥ c.size) ∧ c.malloc MG_PAGESIZE = none ∧
      s.memory.mgPallocSmall pool c.size c.malloc s.fuel =
        some ⟨none, s.memory, none, s.searched⟩) ∨
    ((∀ x ∈ s.searched, ¬ (s.memory.smallBlock x).room ≥ c.size) ∧
      ∃ a, c.malloc MG_PAGESIZE = some a ∧ ∃ cur f,
        (cur, (s.walked pool).map { s.memory.newBlock a c.size with failed := f }.smallBlock) =
          MgPool.countFailed s.memory.current
            ((s.walked pool).map (s.memory.newBlock a c.size).smallBlock) ∧
        (∀ b, b ∉ (s.walked pool).dropLast → f b = (s.memory.newBlock a c.size).failed b) ∧
        s.memory.mgPallocSmall pool c.size c.malloc s.fuel =
          some ⟨some (a + sizeofSmallBlock), paged s.memory pool a c.size cur f, some a,
            s.searched ++ (s.walked pool).dropLast⟩) := by
  obtain ⟨hchain, hfirst⟩ := h.searched_chain
  have hapart : ∀ b ∈ s.searched, b ≠ 0 ∧ b ≠ smallOf pool := by
    intro b hb
    refine ⟨h.nonzero b (mem_searched hb), ?_⟩
    rintro rfl
    exact (List.nodup_cons.mp h.small_nodup).1 (mem_searched hb)
  have hlen : s.searched.length ≤ s.pages.length := (List.dropWhile_sublist _).length_le
  unfold PoolMemory.mgPallocSmall fuel
  cases hfind : s.searched.find? fun b => decide ((s.memory.smallBlock b).room ≥ c.size) with
  | some b =>
    left
    obtain ⟨hb, l₁, l₂, hl, hbefore⟩ := List.find?_eq_some_iff_append.mp hfind
    have hroom : (s.memory.smallBlock b).room ≥ c.size := of_decide_eq_true hb
    have hl₁ : ∀ x ∈ l₁, ¬ (s.memory.smallBlock x).room ≥ c.size := by simpa using hbefore
    refine ⟨l₁, b, l₂, hl, hl₁, hroom, ?_⟩
    rw [hl] at hchain hfirst hapart hlen
    rw [List.length_append, List.length_cons] at hlen
    have hsome := search_some [] hchain
      (fun x hx => ⟨(hapart x (List.mem_append_left _ hx)).1,
        (hapart x (List.mem_append_left _ hx)).2, hl₁ x hx⟩)
      (hapart b (by simp)) hroom (n := s.pages.length + 2) (by omega)
    rw [hfirst] at hsome
    rw [hsome]
    rfl
  | none =>
    right
    have hroom : ∀ x ∈ s.searched, ¬ (s.memory.smallBlock x).room ≥ c.size := by
      simpa using hfind
    have hpassed : ∀ b ∈ s.searched, b ≠ 0 ∧ b ≠ smallOf pool ∧
        ¬ (s.memory.smallBlock b).room ≥ c.size :=
      fun b hb => ⟨(hapart b hb).1, (hapart b hb).2, hroom b hb⟩
    have hnone := search_none [] hchain hpassed (n := s.pages.length + 2) (by omega)
    rw [hfirst, List.nil_append] at hnone
    rw [hnone, Option.bind_some]
    cases hm : c.malloc MG_PAGESIZE with
    | none => exact .inl ⟨hroom, rfl, rfl⟩
    | some a =>
      right
      refine ⟨hroom, a, rfl, ?_⟩
      obtain ⟨rest, hwalk, hwchain, hwnodup, hwhead, hwlen⟩ := h.walked_chain
      obtain ⟨cur, f, q, hloop, hcount, hf⟩ := count_run (m := s.memory.newBlock a c.size)
        (n := s.pages.length + 2) s.searched hwchain hwnodup hwhead (by omega)
      rw [hwalk]
      refine ⟨cur, f, hcount, hf, ?_⟩
      dsimp only
      rw [show (s.memory.newBlock a c.size).current = s.memory.current from rfl, hloop]
      rfl

theorem linked_start (m : PoolMemory) (pool size : ℕ) : (start m pool size).Linked pool := by
  have hne : largeOf pool ≠ smallOf pool := by
    unfold largeOf smallOf
    omega
  refine ⟨?_, Links.Ring.close _ _, ?_, ?_, (fun b hb => nomatch hb), (fun b hb => nomatch hb),
    (fun b hb => nomatch hb), (fun b hb => nomatch hb), List.mem_cons_self ..⟩
  · dsimp only [start, newPool]
    split_ifs with hlt
    · exact hlt.le
    · exact le_rfl
  · apply (Links.Ring.close m.links (largeOf pool)).congr
    · intro a ha
      rw [List.mem_singleton] at ha
      subst ha
      exact Function.update_of_ne hne ..
    · intro a ha
      rw [List.mem_singleton] at ha
      subst ha
      exact Function.update_of_ne hne ..
  · simpa [start, nodes] using hne

namespace Linked

theorem room_eq (h : s.Linked pool) {b : ℕ} (hb : b ∈ s.pages) :
    (s.memory.smallBlock b).room = s.memory.endPtr b - s.memory.last b := by
  apply MgSmallBlock.room_eq
  obtain ⟨hlast, hle⟩ := h.last b hb
  have hend := h.endPtr b hb
  refine ⟨hle, ?_⟩
  dsimp only [smallBlock]
  omega

/-- A block that has room gives its next bytes. -/
theorem gave (h : s.Linked pool) {b size : ℕ} (hb : b ∈ s.pages)
    (hroom : (s.memory.smallBlock b).room ≥ size) :
    Linked pool ⟨s.memory.give b size, s.pages, s.larges⟩ := by
  rw [h.room_eq hb] at hroom
  refine ⟨h.max, h.small, h.large, h.nodup, h.nonzero, h.heads, h.endPtr, ?_, h.current⟩
  intro x hx
  have hlast := h.last x hx
  dsimp only [give]
  by_cases hxb : x = b
  · subst hxb
    rw [Function.update_self]
    omega
  · rw [Function.update_of_ne hxb]
    exact hlast

theorem small_large_disjoint (h : s.Linked pool) :
    (smallOf pool :: s.pages).Disjoint (largeOf pool :: s.larges) := by
  have hnodup := h.nodup
  have hperm : (s.nodes pool).Perm ((smallOf pool :: s.pages) ++ (largeOf pool :: s.larges)) := by
    refine (List.Perm.swap ..).trans ?_
    exact (List.perm_middle.symm).cons _
  exact List.disjoint_of_nodup_append (hperm.nodup_iff.mp hnodup)

/-- A node that is in no use may be added to the blocks. -/
theorem nodup_added (h : s.Linked pool) {a : ℕ} {l : List ℕ} (hfresh : a ∉ s.nodes pool)
    (hl : l.Perm (a :: (s.pages ++ s.larges))) : (largeOf pool :: smallOf pool :: l).Nodup := by
  have hperm : (largeOf pool :: smallOf pool :: l).Perm (a :: s.nodes pool) :=
    (((hl.cons _).trans (List.Perm.swap ..)).cons _).trans (List.Perm.swap ..)
  rw [hperm.nodup_iff, List.nodup_cons]
  exact ⟨hfresh, h.nodup⟩

/-- A new page comes behind the head of its list, and gives the bytes behind its header. -/
theorem pagedWith (h : s.Linked pool) {a size c : ℕ} {f : ℕ → ℤ} (hsize : size ≤ s.memory.max)
    (ha : a ≠ 0) (hfresh : a ∉ s.nodes pool) (hc : c ∈ smallOf pool :: s.pages) :
    Linked pool ⟨paged s.memory pool a size c f, a :: s.pages, s.larges⟩ := by
  have hmax := hsize.trans h.max
  unfold MG_MAX_ALLOC_FROM_POOL at hmax
  have hspace : sizeofSmallBlock + size + 1 ≤ MG_PAGESIZE := by
    unfold sizeofSmallBlock MG_PAGESIZE at hmax ⊢
    omega
  have hold : ∀ b ∈ s.pages ++ s.larges, b ≠ a := by
    rintro b hb rfl
    exact hfresh (List.mem_cons_of_mem _ (List.mem_cons_of_mem _ hb))
  have hnodup := h.nodup_added hfresh (List.Perm.refl (a :: s.pages ++ s.larges))
  simp only [nodes, List.mem_cons, List.mem_append, not_or] at hfresh
  obtain ⟨hlarge, hsmall, hpages, hlarges⟩ := hfresh
  refine ⟨h.max, ?_, ?_, hnodup, ?_, ?_, ?_, ?_, ?_⟩
  · exact insertListEnd_ring h.small (by simp [hsmall, hpages])
  · exact h.large.insertBehind_of_disjoint h.small (by simp [hlarge, hlarges])
      h.small_large_disjoint
  · intro b hb
    rcases List.mem_cons.mp hb with rfl | hb
    · exact ha
    · exact h.nonzero b hb
  · intro b hb
    rcases List.mem_cons.mp hb with rfl | hb
    · exact Function.update_self ..
    · exact (Function.update_of_ne (hold b hb) ..).trans (h.heads b hb)
  · intro b hb
    rcases List.mem_cons.mp hb with rfl | hb
    · exact Function.update_self ..
    · exact (Function.update_of_ne (hold b (List.mem_append_left _ hb)) ..).trans (h.endPtr b hb)
  · intro b hb
    dsimp only [paged, newBlock]
    rcases List.mem_cons.mp hb with rfl | hb
    · rw [Function.update_self, Function.update_self]
      omega
    · have hne := hold b (List.mem_append_left _ hb)
      rw [Function.update_of_ne hne, Function.update_of_ne hne]
      exact h.last b hb
  · rcases List.mem_cons.mp hc with hc | hc
    · exact hc ▸ List.mem_cons_self ..
    · exact List.mem_cons_of_mem _ (List.mem_cons_of_mem _ hc)

/-- A large block comes behind the head of the other list. -/
theorem enlarged (h : s.Linked pool) {a size : ℕ} {malloc : ℕ → Option ℕ}
    (hmalloc : malloc (largeRequest size) = some a) (hfresh : a ∉ s.nodes pool) :
    Linked pool ⟨(s.memory.mgPallocLarge pool size malloc).memory, s.pages, a :: s.larges⟩ := by
  have hold : ∀ b ∈ s.pages ++ s.larges, b ≠ a := by
    rintro b hb rfl
    exact hfresh (List.mem_cons_of_mem _ (List.mem_cons_of_mem _ hb))
  have hnodup := h.nodup_added hfresh (@List.perm_middle _ a s.pages s.larges)
  simp only [PoolMemory.mgPallocLarge, hmalloc]
  simp only [nodes, List.mem_cons, List.mem_append, not_or] at hfresh
  obtain ⟨hlarge, hsmall, hpages, hlarges⟩ := hfresh
  refine ⟨h.max, ?_, ?_, hnodup, h.nonzero, ?_, h.endPtr, h.last, h.current⟩
  · exact h.small.insertBehind_of_disjoint h.large (by simp [hsmall, hpages])
      h.small_large_disjoint.symm
  · exact insertListEnd_ring h.large (by simp [hlarge, hlarges])
  · intro b hb
    by_cases hba : b = a
    · subst hba
      exact Function.update_self ..
    · have hmem : b ∈ s.pages ++ s.larges := by
        simpa [hba] using hb
      exact (Function.update_of_ne hba ..).trans (h.heads b hmem)

/-- The walk moves `_current` only to a node that it meets. -/
theorem counted_current (h : s.Linked pool) {m : PoolMemory} {cur : ℕ} {l : List MgSmallBlock}
    (hcount : (cur, l) = MgPool.countFailed s.memory.current ((s.walked pool).map m.smallBlock)) :
    cur ∈ smallOf pool :: s.pages := by
  have hmem := MgPool.countFailed_current s.memory.current ((s.walked pool).map m.smallBlock)
  rw [← hcount, List.map_map] at hmem
  rcases List.mem_cons.mp hmem with hcur | hcur
  · have heq : cur = s.memory.current := hcur
    rw [heq]
    exact h.current
  · obtain ⟨b, hb, rfl⟩ := List.mem_map.mp hcur
    exact (List.dropWhile_sublist _).subset hb

end Linked

theorem palloc_small (hsize : c.size ≤ s.memory.max) :
    s.palloc pool c = s.memory.mgPallocSmall pool c.size c.malloc s.fuel := by
  rw [palloc, PoolMemory.mgPalloc, if_pos hsize]

theorem palloc_large (hsize : ¬ c.size ≤ s.memory.max) :
    s.palloc pool c = some (s.memory.mgPallocLarge pool c.size c.malloc) := by
  rw [palloc, PoolMemory.mgPalloc, if_neg hsize]

/-- Where a run goes on, the call has got nothing that was in use. -/
theorem step_eq_some (ht : step pool s c = some t) : ∃ o, s.palloc pool c = some o ∧
    s.Fresh pool o ∧
    (c.size ≤ s.memory.max → t = ⟨o.memory, o.obtained.toList ++ s.pages, s.larges⟩) ∧
    (¬ c.size ≤ s.memory.max → t = ⟨o.memory, s.pages, o.obtained.toList ++ s.larges⟩) := by
  obtain ⟨o, ho, ht⟩ := Option.bind_eq_some_iff.mp ht
  simp only [Option.ite_none_right_eq_some] at ht
  obtain ⟨⟨hfresh, -, -⟩, ht⟩ := ht
  refine ⟨o, ho, hfresh, ?_, ?_⟩
  · intro hsize
    rw [if_pos hsize, Option.some.injEq] at ht
    exact ht.symm
  · intro hsize
    rw [if_neg hsize, Option.some.injEq] at ht
    exact ht.symm

/-- What a call can come to: its result, and the pool after it. -/
inductive Turn (pool : ℕ) (s : PoolState) (c : PoolCall) : Option ℕ → PoolState → Prop
  | gave {l₁ l₂ : List ℕ} {b : ℕ} (hsize : c.size ≤ s.memory.max)
      (hl : s.searched = l₁ ++ b :: l₂) (hl₁ : ∀ x ∈ l₁, ¬ (s.memory.smallBlock x).room ≥ c.size)
      (hroom : (s.memory.smallBlock b).room ≥ c.size) :
      Turn pool s c (some (s.memory.last b)) ⟨s.memory.give b c.size, s.pages, s.larges⟩
  | refused (hsize : c.size ≤ s.memory.max)
      (hnone : ∀ x ∈ s.searched, ¬ (s.memory.smallBlock x).room ≥ c.size)
      (hm : c.malloc MG_PAGESIZE = none) : Turn pool s c none s
  | paged {a cur : ℕ} {f : ℕ → ℤ} (hsize : c.size ≤ s.memory.max)
      (hnone : ∀ x ∈ s.searched, ¬ (s.memory.smallBlock x).room ≥ c.size)
      (hm : c.malloc MG_PAGESIZE = some a) (hzero : a ≠ 0) (hnew : a ∉ s.nodes pool)
      (hcount : (cur, (s.walked pool).map
          { s.memory.newBlock a c.size with failed := f }.smallBlock) =
        MgPool.countFailed s.memory.current
          ((s.walked pool).map (s.memory.newBlock a c.size).smallBlock))
      (hf : ∀ b, b ∉ (s.walked pool).dropLast → f b = (s.memory.newBlock a c.size).failed b) :
      Turn pool s c (some (a + sizeofSmallBlock))
        ⟨PoolState.paged s.memory pool a c.size cur f, a :: s.pages, s.larges⟩
  | refusedLarge (hsize : ¬ c.size ≤ s.memory.max) (hm : c.malloc (largeRequest c.size) = none) :
      Turn pool s c none s
  | enlarged {a : ℕ} (hsize : ¬ c.size ≤ s.memory.max)
      (hm : c.malloc (largeRequest c.size) = some a) (hnew : a ∉ s.nodes pool) :
      Turn pool s c (some (a + sizeofLargeBlock))
        ⟨(s.memory.mgPallocLarge pool c.size c.malloc).memory, s.pages, a :: s.larges⟩

theorem turn_of_step (h : s.Linked pool) (ht : step pool s c = some t) :
    ∃ r, (s.palloc pool c).map (·.result) = some r ∧ Turn pool s c r t := by
  obtain ⟨o, ho, hfresh, hsmall, hlarge⟩ := step_eq_some ht
  refine ⟨o.result, by rw [ho, Option.map_some], ?_⟩
  by_cases hsize : c.size ≤ s.memory.max
  · rw [palloc_small hsize] at ho
    rw [hsmall hsize]
    rcases mgPallocSmall_cases h c with ⟨l₁, b, l₂, hl, hl₁, hroom, heq⟩ | ⟨hnone, hm, heq⟩ |
      ⟨hnone, a, hm, cur, f, hcount, hf, heq⟩
    · rw [heq, Option.some.injEq] at ho
      subst ho
      exact .gave hsize hl hl₁ hroom
    · rw [heq, Option.some.injEq] at ho
      subst ho
      exact .refused hsize hnone hm
    · rw [heq, Option.some.injEq] at ho
      subst ho
      obtain ⟨hzero, hnew⟩ := hfresh a rfl
      exact .paged hsize hnone hm hzero hnew hcount hf
  · rw [palloc_large hsize, Option.some.injEq] at ho
    rw [hlarge hsize]
    subst ho
    cases hm : c.malloc (largeRequest c.size) with
    | none =>
      have hturn : Turn pool s c none s := .refusedLarge hsize hm
      simp only [PoolMemory.mgPallocLarge, hm]
      exact hturn
    | some a =>
      have hnew : a ∉ s.nodes pool := (hfresh a (by simp only [PoolMemory.mgPallocLarge, hm]; rfl)).2
      have hturn := Turn.enlarged hsize hm hnew
      simp only [PoolMemory.mgPallocLarge, hm, Function.update_self] at hturn ⊢
      exact hturn

/-- Every call keeps both lists. -/
theorem linked_step (h : s.Linked pool) (ht : step pool s c = some t) : t.Linked pool := by
  obtain ⟨r, -, hturn⟩ := turn_of_step h ht
  cases hturn with
  | gave hsize hl hl₁ hroom =>
    exact h.gave (mem_searched (hl ▸ List.mem_append_right _ (List.mem_cons_self ..))) hroom
  | refused hsize hnone hm => exact h
  | paged hsize hnone hm hzero hnew hcount hf =>
    exact h.pagedWith hsize hzero hnew (h.counted_current hcount)
  | refusedLarge hsize hm => exact h
  | enlarged hsize hm hnew => exact h.enlarged hm hnew

theorem linked_of_reachable {m : PoolMemory} {size : ℕ}
    (h : Reachable (step pool) (fun _ _ => True) (start m pool size) s) : s.Linked pool := by
  apply Reachable.invariant (Linked pool) (linked_start m pool size) _ h
  intro s c t hs _ ht
  exact linked_step hs ht

end PoolState

end MgRaffle.Core
