import MgRaffle.Library.BinaryHeap
import MgRaffle.Library.Looping

namespace MgRaffle.Utils
open Looping

variable {α : Type}

section Elements

variable (valid : ℕ → Prop) [DecidablePred valid]

/-- `array[i]`, which exists where `i` is one of the `valid` indices. -/
def load (array : ℕ → α) : ℤ → Option α
  | .ofNat i => if valid i then some (array i) else none
  | .negSucc _ => none

def store (array : ℕ → α) (x : α) : ℤ → Option (ℕ → α)
  | .ofNat i => if valid i then some (Function.update array i x) else none
  | .negSucc _ => none

/-- `tmp = array[i]; array[i] = array[j]; array[j] = tmp;` -/
def exchange (array : ℕ → α) (i j : ℤ) : Option (ℕ → α) := do
  let tmp ← load valid array i
  let y ← load valid array j
  let array ← store valid array y i
  store valid array tmp j

/-- The value of an `int` expression, if it does not overflow. -/
def int (n : ℤ) : Option ℤ := if -2147483648 ≤ n ∧ n ≤ 2147483647 then some n else none

variable {valid} {a : ℕ → α} {i j : ℕ}

theorem load_of_valid (h : valid i) : load valid a (i : ℤ) = some (a i) := if_pos h

theorem load_of_not_valid (h : ¬ valid i) : load valid a (i : ℤ) = none := if_neg h

theorem exchange_of_valid (hi : valid i) (hj : valid j) :
    exchange valid a (i : ℤ) (j : ℤ) = some (a ∘ Equiv.swap i j) := by
  have hstore : ∀ (b : ℕ → α) (x : α) (k : ℕ), valid k →
      store valid b x (k : ℤ) = some (Function.update b k x) := fun b x k hk => if_pos hk
  rw [exchange, load_of_valid hi, load_of_valid hj]
  simp only [bind, Option.bind_some, hstore _ _ i hi, hstore _ _ j hj]
  rw [Equiv.swap_comm, Equiv.comp_swap_eq_update]

theorem int_of_le {n : ℤ} (hlow : -2147483648 ≤ n) (hhigh : n ≤ 2147483647) : int n = some n :=
  if_pos ⟨hlow, hhigh⟩

theorem int_eq_some {n m : ℤ} (h : int n = some m) : m = n ∧ -2147483648 ≤ n ∧ n ≤ 2147483647 := by
  unfold int at h
  split at h
  · cases h
    exact ⟨rfl, ‹_›⟩
  · cases h

end Elements

/-- A `Sequence` whose `_comp` is a total preorder: it is positive where the left one is greater. -/
structure Sequence (α : Type) where
  comp : α → α → ℤ
  comp_le_iff : ∀ x y, comp x y ≤ 0 ↔ 0 ≤ comp y x
  comp_trans : ∀ x y z, comp x y ≤ 0 → comp y z ≤ 0 → comp x z ≤ 0

namespace Sequence

variable (s : Sequence α)

/-- The order that `_comp` stands for. -/
def le (x y : α) : Prop := s.comp x y ≤ 0

instance : DecidableRel s.le := fun x y => inferInstanceAs (Decidable (s.comp x y ≤ 0))

instance : Std.Total s.le where
  total x y := by
    unfold le
    rw [s.comp_le_iff y x]
    exact le_total _ _

instance : IsTrans α s.le := ⟨s.comp_trans⟩

theorem not_le_iff_pos (x y : α) : ¬ s.le x y ↔ 0 < s.comp x y := not_le

theorem not_le_iff_neg (x y : α) : ¬ s.le y x ↔ s.comp x y < 0 := by
  rw [le, s.comp_le_iff, not_le]

theorem comp_self (x : α) : s.comp x x ≤ 0 := Std.Refl.refl (r := s.le) x

/-- The `int`s in their usual order. -/
def ints : Sequence ℤ where
  comp x y := x - y
  comp_le_iff x y := by omega
  comp_trans x y z := by omega

variable (valid : ℕ → Prop) [DecidablePred valid]

section Bubble

/-- `array` and `i` of `bubble`. -/
structure Bubbling (α : Type) where
  array : ℕ → α
  i : ℤ

/-- The body of the inner loop. -/
def bubbleStep (i : ℤ) (j : ℕ) (array : ℕ → α) : Option (ℕ → α) := do
  let x ← load valid array i
  let y ← load valid array j
  if s.comp x y > 0 then exchange valid array i j else some array

/-- `for (j = 0; j < i; j++)`, and `i--`. -/
def bubbleTurn (length : ℤ) (b : Bubbling α) : Option (Bubbling α ⊕ (ℕ → α)) :=
  if b.i < length then do
    let array ← countUp (s.bubbleStep valid b.i) b.i.toNat b.array
    let i ← int (b.i - 1)
    some (.inl ⟨array, i⟩)
  else some (.inr b.array)

def bubble (fuel : ℕ) (array : ℕ → α) (length : ℤ) : Option (ℕ → α) :=
  if length < 2 then some array
  else loop (s.bubbleTurn valid length) fuel ⟨array, length - 1⟩

/-- `bubble`, stopped once its index `i` is below 0. -/
def bubbleToZero (fuel : ℕ) (array : ℕ → α) (length : ℤ) : Option (ℕ → α) :=
  if length < 2 then some array
  else loop (fun b => if b.i < 0 then some (.inr b.array) else s.bubbleTurn valid length b) fuel
    ⟨array, length - 1⟩

end Bubble

section FastSort

/-- `array`, `i` and `j` of `fast_sort`. -/
structure Partitioning (α : Type) where
  array : ℕ → α
  i : ℤ
  j : ℤ

/-- `while (_comp(array[j], key) < 0)` -/
def partitionDown (key : α) (p : Partitioning α) : Option (Partitioning α ⊕ Partitioning α) := do
  let x ← load valid p.array p.j
  if s.comp x key < 0 then do
    let array ← store valid p.array x p.i
    let j ← int (p.j - 1)
    some (.inl ⟨array, p.i, j⟩)
  else some (.inr p)

/-- `while (_comp(array[i], key) > 0)` -/
def partitionUp (key : α) (p : Partitioning α) : Option (Partitioning α ⊕ Partitioning α) := do
  let x ← load valid p.array p.i
  if s.comp x key > 0 then do
    let array ← store valid p.array x p.j
    let i ← int (p.i + 1)
    some (.inl ⟨array, i, p.j⟩)
  else some (.inr p)

/-- `while (i < j)` -/
def partitionTurn (fuel : ℕ) (key : α) (p : Partitioning α) :
    Option (Partitioning α ⊕ Partitioning α) :=
  if p.i < p.j then do
    let p ← loop (s.partitionDown valid key) fuel p
    let p ← loop (s.partitionUp valid key) fuel p
    some (.inl p)
  else some (.inr p)

def fastSort : ℕ → (ℕ → α) → ℤ → ℤ → Option (ℕ → α)
  | 0, _, _, _ => none
  | fuel + 1, array, low, high =>
    if low ≥ high then some array
    else do
      let key ← load valid array low
      let p ← loop (s.partitionTurn valid fuel key) fuel ⟨array, low, high⟩
      let array ← store valid p.array key p.i
      let below ← int (p.j - 1)
      let array ← fastSort fuel array low below
      let above ← int (p.j + 1)
      fastSort fuel array above high

end FastSort

section Heap

/-- `array`, `dad` and `son` of `adjust_heap`. -/
structure Adjusting (α : Type) where
  array : ℕ → α
  dad : ℤ
  son : ℤ

/-- `if (son + 1 <= end && _comp(array[son], array[son + 1]) < 0) son += 1;` -/
def greaterSon (stop : ℤ) (h : Adjusting α) : Option ℤ := do
  let right ← int (h.son + 1)
  if right ≤ stop then do
    let x ← load valid h.array h.son
    let y ← load valid h.array right
    some (if s.comp x y < 0 then right else h.son)
  else some h.son

/-- `dad` and `son` change places, `dad = son;` and `son = dad * 2 + 1;`. -/
def descend (array : ℕ → α) (dad son : ℤ) : Option (Adjusting α) := do
  let array ← exchange valid array dad son
  let next ← int (son * 2 + 1)
  some ⟨array, son, next⟩

/-- `while (son <= end)`; `stop` is `end`. -/
def adjustTurn (stop : ℤ) (h : Adjusting α) : Option (Adjusting α ⊕ (ℕ → α)) :=
  if h.son ≤ stop then do
    let son ← s.greaterSon valid stop h
    let x ← load valid h.array h.dad
    let y ← load valid h.array son
    if s.comp x y > 0 then some (.inr h.array)
    else (descend valid h.array h.dad son).map .inl
  else some (.inr h.array)

def adjustHeap (fuel : ℕ) (array : ℕ → α) (start stop : ℤ) : Option (ℕ → α) := do
  let son ← int (start * 2 + 1)
  loop (s.adjustTurn valid stop) fuel ⟨array, start, son⟩

def heapSort (fuel : ℕ) (array : ℕ → α) (length : ℕ) : Option (ℕ → α) := do
  let array ← countDown (fun i array => s.adjustHeap valid fuel array i length) (length / 2) array
  -- from here on `i` of the source is `i + 1`
  countDown (fun i array => do
    let array ← exchange valid array 0 (i + 1)
    s.adjustHeap valid fuel array 0 (i + 1 - 1)) (length - 1) array

end Heap

end Sequence

end MgRaffle.Utils
