import MgRaffle.Core.PoolMemory
import MgRaffle.Library.Stepping

open Looping Stepping

namespace MgRaffle.Core

/-- What destroying reads of a block: of the pool the `_next` of both list heads, and of any other
block the `_next` of its node and its `_head`. -/
inductive Contents
  | pool (large small : ℕ)
  | block (next head : ℕ)
  deriving Repr, DecidableEq

/-- The blocks from `malloc` that have not been freed. -/
abbrev PoolHeap := ℕ → Option Contents

namespace PoolHeap

def readPool (h : PoolHeap) (a : ℕ) : Option (ℕ × ℕ) :=
  match h a with
  | some (.pool large small) => some (large, small)
  | _ => none

def readBlock (h : PoolHeap) (a : ℕ) : Option (ℕ × ℕ) :=
  match h a with
  | some (.block next head) => some (next, head)
  | _ => none

def free (h : PoolHeap) (a : ℕ) : Option PoolHeap :=
  if (h a).isSome then some (Function.update h a none) else none

/-- One turn of a `for` loop, which reads `_next` of the node after its block has been freed. -/
def freeTurn (head : ℕ) (w : PoolHeap × ℕ) : Option ((PoolHeap × ℕ) ⊕ PoolHeap) :=
  if w.2 ≠ head then do
    let block ← w.1.readBlock w.2
    let h ← w.1.free block.2
    let node ← h.readBlock w.2
    some (.inl (h, node.1))
  else some (.inr w.1)

/-- There is no heap afterwards where a block is read or freed that is not there, and where a loop
takes more than `fuel` turns. -/
def mgDestoryPool (h : PoolHeap) (pool fuel : ℕ) : Option PoolHeap := do
  let heads ← h.readPool pool
  let h ← loop (freeTurn (largeOf pool)) fuel (h, heads.1)
  let heads ← h.readPool pool
  let h ← loop (freeTurn (smallOf pool)) fuel (h, heads.2)
  h.free pool

end PoolHeap

namespace PoolState

open PoolHeap

/-- The pool and the blocks that it has got. -/
def heap (pool : ℕ) (s : PoolState) : PoolHeap := fun a =>
  if a = pool then
    some (.pool (s.memory.links.next (largeOf pool)) (s.memory.links.next (smallOf pool)))
  else if a ∈ s.pages ++ s.larges then
    some (.block (s.memory.links.next a) (s.memory.headPtr a))
  else none

/-- Destroying the pool comes to its end, reads and frees what is there only, and leaves nothing. -/
def Clean (pool : ℕ) (s : PoolState) : Prop :=
  ∃ fuel h, (s.heap pool).mgDestoryPool pool fuel = some h ∧ ∀ a, h a = none

/-- The block of a node goes before its `_next` is read. -/
theorem freeTurn_eq_none {h : PoolHeap} {head n next : ℕ} (hn : n ≠ head)
    (hblock : h.readBlock n = some (next, n)) : freeTurn head (h, n) = none := by
  have hlive : (h n).isSome := by
    unfold readBlock at hblock
    cases hh : h n with
    | none =>
      rw [hh] at hblock
      cases hblock
    | some c => rfl
  have hfree : h.free n = some (Function.update h n none) := if_pos hlive
  have hgone : readBlock (Function.update h n none) n = none := by
    rw [readBlock, Function.update_self]
  simp only [freeTurn]
  rw [if_pos hn, hblock, Option.bind_eq_bind, Option.bind_some]
  dsimp only
  rw [hfree, Option.bind_eq_bind, Option.bind_some, hgone]
  rfl

variable {pool : ℕ} {s : PoolState}

theorem readPool_heap (pool : ℕ) (s : PoolState) : (s.heap pool).readPool pool =
    some (s.memory.links.next (largeOf pool), s.memory.links.next (smallOf pool)) := by
  rw [readPool, heap, if_pos rfl]

/-- Both loops fail at the first block of their list. -/
theorem freeTurn_first (h : s.Linked pool) {head n : ℕ} (hn : n ∈ s.pages ++ s.larges)
    (hne : n ≠ head) : freeTurn head (s.heap pool, n) = none := by
  by_cases hpool : n = pool
  · have hblock : (s.heap pool).readBlock n = none := by
      rw [readBlock, heap, if_pos hpool]
    simp only [freeTurn]
    rw [if_pos hne, hblock]
    rfl
  · have hblock : (s.heap pool).readBlock n = some (s.memory.links.next n, n) := by
      rw [readBlock, heap, if_neg hpool, if_pos hn]
      dsimp only
      rw [h.heads n hn]
    exact freeTurn_eq_none hne hblock

/-- A loop comes to its end exactly if its list has no block, and then it has changed nothing. -/
theorem free_loop (h : s.Linked pool) {head n : ℕ} {l : List ℕ}
    (hring : s.memory.links.Ring head l) (hl : l ⊆ s.pages ++ s.larges) {g : PoolHeap} :
    loop (freeTurn head) n (s.heap pool, s.memory.links.next head) = some g ↔
      0 < n ∧ l = [] ∧ g = s.heap pool := by
  have hfirst := hring.next_head
  cases l with
  | nil =>
    rw [List.head?_nil, Option.getD_none] at hfirst
    rw [hfirst]
    have hturn : freeTurn head (s.heap pool, head) = some (.inr (s.heap pool)) := by
      simp only [freeTurn]
      rw [if_neg fun hne => hne rfl]
    cases n with
    | zero =>
      constructor
      · intro hg
        cases hg
      · intro hg
        exact absurd hg.1 (Nat.lt_irrefl 0)
    | succ n =>
      rw [loop_inr hturn, Option.some.injEq]
      constructor
      · intro hg
        exact ⟨Nat.succ_pos n, rfl, hg.symm⟩
      · intro hg
        exact hg.2.2.symm
  | cons b rest =>
    rw [List.head?_cons, Option.getD_some] at hfirst
    have hne : b ≠ head := by
      rintro rfl
      exact (List.nodup_cons.mp hring.nodup).1 (List.mem_cons_self ..)
    rw [hfirst, loop_none (freeTurn_first h (hl (List.mem_cons_self ..)) hne)]
    constructor
    · intro hg
      cases hg
    · intro hg
      cases hg.2.1

/-- A pool is destroyed in good order exactly if it has no block. -/
theorem clean_iff (h : s.Linked pool) : s.Clean pool ↔ s.pages = [] ∧ s.larges = [] := by
  have hlarge {g : PoolHeap} {n : ℕ} := free_loop h (n := n) (g := g) h.large
    (List.subset_append_right ..)
  have hsmall {g : PoolHeap} {n : ℕ} := free_loop h (n := n) (g := g) h.small
    (List.subset_append_left ..)
  constructor
  · rintro ⟨fuel, g, hg, -⟩
    unfold mgDestoryPool at hg
    rw [readPool_heap, Option.bind_eq_bind, Option.bind_some] at hg
    obtain ⟨h₁, hloop, hg⟩ := Option.bind_eq_some_iff.mp hg
    obtain ⟨-, hlarges, rfl⟩ := hlarge.mp hloop
    rw [readPool_heap, Option.bind_eq_bind, Option.bind_some] at hg
    obtain ⟨h₂, hloop, -⟩ := Option.bind_eq_some_iff.mp hg
    obtain ⟨-, hpages, -⟩ := hsmall.mp hloop
    exact ⟨hpages, hlarges⟩
  · rintro ⟨hpages, hlarges⟩
    refine ⟨1, Function.update (s.heap pool) pool none, ?_, ?_⟩
    · have hlive : ((s.heap pool) pool).isSome := by
        rw [heap, if_pos rfl]
        rfl
      unfold mgDestoryPool
      rw [readPool_heap, Option.bind_eq_bind, Option.bind_some]
      dsimp only
      rw [hlarge.mpr ⟨Nat.one_pos, hlarges, rfl⟩, Option.bind_eq_bind, Option.bind_some,
        readPool_heap, Option.bind_some]
      dsimp only
      rw [hsmall.mpr ⟨Nat.one_pos, hpages, rfl⟩, Option.bind_some]
      exact if_pos hlive
    · intro a
      by_cases ha : a = pool
      · rw [ha, Function.update_self]
      · rw [Function.update_of_ne ha, heap, if_neg ha, hpages, hlarges]
        rfl

/-- In every run from a new pool, the pool is destroyed in good order exactly where no call of
`mg_palloc` has got a block. -/
theorem destory_clean_iff (m : PoolMemory) (pool size : ℕ) (s : PoolState)
    (h : Reachable (step pool) (fun _ _ => True) (start m pool size) s) :
    s.Clean pool ↔ s.pages = [] ∧ s.larges = [] := clean_iff (linked_of_reachable h)

/-- A pool whose only request `malloc` has refused. -/
theorem destory_clean_refused : ∃ s, runIf (step 1000) (fun _ _ => True)
    (start ⟨0, 0, ⟨id, id⟩, id, id, id, id, fun _ => 0⟩ 1000 100) [⟨60, fun _ => none⟩] = some s ∧
      (s.Clean 1000 ↔ s.pages = [] ∧ s.larges = []) := by
  obtain ⟨s, hs⟩ : ∃ s, runIf (step 1000) (fun _ _ => True)
      (start ⟨0, 0, ⟨id, id⟩, id, id, id, id, fun _ => 0⟩ 1000 100) [⟨60, fun _ => none⟩] =
        some s := ⟨_, rfl⟩
  exact ⟨s, hs, destory_clean_iff _ 1000 100 s (.of_runIf .init hs)⟩

/-- The `_next` of a freed page is read. -/
theorem freed_page_read : ¬ ∀ (m : PoolMemory) (pool size : ℕ) (s : PoolState),
    Reachable (step pool) (fun _ _ => True) (start m pool size) s → s.Clean pool := by
  intro h
  obtain ⟨s, hs⟩ : ∃ s, runIf (step 1000) (fun _ _ => True)
      (start ⟨0, 0, ⟨id, id⟩, id, id, id, id, fun _ => 0⟩ 1000 100) [⟨60, fun _ => some 4096⟩] =
        some s := ⟨_, rfl⟩
  have hreach := Reachable.of_runIf .init hs
  have hpages := ((clean_iff (linked_of_reachable hreach)).mp (h _ 1000 100 s hreach)).1
  cases hs
  cases hpages

end PoolState

end MgRaffle.Core
