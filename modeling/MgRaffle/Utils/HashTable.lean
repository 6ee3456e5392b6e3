import MgRaffle.Library.Chain
import MgRaffle.Library.Looping

namespace MgRaffle.Utils

open LinkedChain

/-- Where a `List*` is kept: in a bucket of the `array`-th array that was allocated, or in `next`. -/
inductive Slot (ι : Type*)
  | bucket (array i : ℕ)
  | next (a : ι)
  deriving DecidableEq, Repr

/-- The table with the fields of all the nodes that change; `list` is the array that was allocated
last. `prev` has the place of the pointer to the node. -/
structure HashTable (ι : Type*) where
  length : UInt32
  elem : UInt32
  list : ℕ → Pointer ι
  array : ℕ
  next : ι → Pointer ι
  prev : ι → Option (Slot ι)

/-- Where the loops of `resize` are. -/
structure Moving (ι : Type*) where
  list : ℕ → Pointer ι
  next : ι → Pointer ι
  count : UInt32

namespace HashTable

section Code

variable {ι κ : Type*} [DecidableEq ι] [DecidableEq κ] (key : ι → κ) (hash : ι → UInt32)
  (mem : ℕ → ℕ → Pointer ι)

omit [DecidableEq ι] in
def bucketOf (length x : UInt32) : ℕ := (x &&& (length - 1)).toNat

omit [DecidableEq ι] in
def index (T : HashTable ι) (x : UInt32) : ℕ := bucketOf T.length x

omit [DecidableEq ι] in
/-- An array that is deleted has no contents any more. -/
def read (T : HashTable ι) : Slot ι → Pointer ι
  | .bucket array i => if array = T.array then T.list i else .wild
  | .next a => T.next a

def write (p : Slot ι) (v : Pointer ι) (T : HashTable ι) : HashTable ι :=
  match p with
  | .bucket array i => if array = T.array then { T with list := Function.update T.list i v } else T
  | .next a => { T with next := Function.update T.next a v }

def setPrev (l : ι) (p : Slot ι) (T : HashTable ι) : HashTable ι :=
  { T with prev := Function.update T.prev l (some p) }

omit [DecidableEq ι] in
def findTurn (k : κ) (x : UInt32) (T : HashTable ι) (ptr : Slot ι) : Option (Slot ι ⊕ Slot ι) :=
  match T.read ptr with
  | .null => some (.inr ptr)
  | .wild => none
  | .node t => if hash t = x ∧ key t = k then some (.inr ptr) else some (.inl (.next t))

omit [DecidableEq ι] in
def findNode (fuel : ℕ) (k : κ) (x : UInt32) (T : HashTable ι) : Option (Slot ι) :=
  Looping.loop (findTurn key hash k x T) fuel (.bucket T.array (T.index x))

omit [DecidableEq ι] in
def lookup (fuel : ℕ) (k : κ) (x : UInt32) (T : HashTable ι) : Option (Pointer ι) :=
  (findNode key hash fuel k x T).map T.read

def growTurn (elem newLength : UInt32) : Option (UInt32 ⊕ UInt32) :=
  if newLength < elem then some (.inl (newLength <<< 2)) else some (.inr newLength)

/-- Moves the node that the pointer leads to, to the front of its new bucket. -/
def moveTurn (newLength : UInt32) :
    Pointer ι × Moving ι → Option ((Pointer ι × Moving ι) ⊕ Moving ι)
  | (.null, s) => some (.inr s)
  | (.wild, _) => none
  | (.node l, s) =>
    let head := bucketOf newLength (hash l)
    some (.inl (s.next l, {
      list := Function.update s.list head (.node l)
      next := Function.update s.next l (s.list head)
      count := s.count + 1 }))

def moveAll (fuel : ℕ) (newLength : UInt32) (T : HashTable ι) (is : List ℕ) (s : Moving ι) :
    Option (Moving ι) :=
  is.foldlM (fun s i => Looping.loop (moveTurn hash newLength) fuel (T.list i, s)) s

/-- The `array`-th array after `memset`, which counts bytes and not pointers of eight bytes: what was
in memory before, given by `mem`, stays in the slots that it does not reach to the end of. -/
def newList (array : ℕ) (length : UInt32) (i : ℕ) : Pointer ι :=
  if 8 * (i + 1) ≤ length.toNat then .null else mem array i

/-- There is no result where the assertion fails. -/
def resize (fuel : ℕ) (T : HashTable ι) : Option (HashTable ι) :=
  (Looping.loop (growTurn T.elem) fuel 4).bind fun newLength =>
  (moveAll hash fuel newLength T (List.range T.length.toNat)
    ⟨newList mem (T.array + 1) newLength, T.next, 0⟩).bind fun s =>
  if s.count = T.elem then
    some { T with length := newLength, list := s.list, array := T.array + 1, next := s.next }
  else none

/-- The constructor; the nodes have the links that their own constructor gives them. -/
def new (fuel : ℕ) : Option (HashTable ι) :=
  resize hash mem fuel ⟨0, 0, fun _ => .wild, 0, fun _ => .null, fun _ => none⟩

/-- The pointer that is returned comes first. -/
def insertNode (fuel : ℕ) (l : ι) (T : HashTable ι) : Option (Pointer ι × HashTable ι) :=
  (findNode key hash fuel (key l) (hash l) T).bind fun ptr =>
  let old := T.read ptr
  let T := (T.write ptr (.node l)).setPrev l ptr
  if old = .null then
    let T := { T with elem := T.elem + 1 }
    if T.elem > T.length then (resize hash mem fuel T).map fun T => (old, T)
    else some (old, T)
  else some (old, T)

/-- A run of insertions, with the pointers that they return. -/
def inserts (fuel : ℕ) : List ι → HashTable ι → Option (List (Pointer ι) × HashTable ι)
  | [], T => some ([], T)
  | l :: ls, T => (insertNode key hash mem fuel l T).bind fun r =>
    (inserts fuel ls r.2).map fun q => (r.1 :: q.1, q.2)

end Code

variable {ι κ : Type*} [DecidableEq ι] [DecidableEq κ] {key : ι → κ} {hash : ι → UInt32}
  {mem : ℕ → ℕ → Pointer ι} {T : HashTable ι} {k : κ} {x : UInt32} {a l : ι} {p : Slot ι}
  {xs : List ι} {q v : Pointer ι} {fuel : ℕ}

section Walk

omit [DecidableEq ι] in
/-- The place behind the nodes of a chain that starts at `p`. -/
def endSlot (p : Slot ι) : List ι → Slot ι
  | [] => p
  | a :: as => endSlot (.next a) as

omit [DecidableEq ι] in
theorem read_endSlot (h : Segment T.next (T.read p) xs q) : T.read (endSlot p xs) = q := by
  induction xs generalizing p with
  | nil => exact h
  | cons a as ih => exact ih h.2

omit [DecidableEq ι] in
theorem endSlot_mem (p : Slot ι) (xs : List ι) :
    endSlot p xs = p ∨ ∃ a ∈ xs, endSlot p xs = .next a := by
  induction xs generalizing p with
  | nil => exact Or.inl rfl
  | cons a as ih =>
    apply Or.inr
    cases ih (.next a) with
    | inl hend => exact ⟨a, List.mem_cons_self .., hend⟩
    | inr hend =>
      obtain ⟨b, hb, hend⟩ := hend
      exact ⟨b, List.mem_cons_of_mem _ hb, hend⟩

omit [DecidableEq ι] in
/-- The loop stops at the end of a chain, or at the first node that it looks for. -/
theorem walk (h : Segment T.next (T.read p) xs q) (hne : ∀ a ∈ xs, ¬ (hash a = x ∧ key a = k))
    (hq : q = .null ∨ ∃ b, q = .node b ∧ hash b = x ∧ key b = k) (hfuel : xs.length < fuel) :
    Looping.loop (findTurn key hash k x T) fuel p = some (endSlot p xs) := by
  induction xs generalizing p fuel with
  | nil =>
    obtain ⟨n, hn⟩ : ∃ n, fuel = n + 1 := ⟨fuel - 1, by simp at hfuel; omega⟩
    have hread : T.read p = q := h
    rw [hn]
    apply Looping.loop_inr
    rw [findTurn, hread]
    cases hq with
    | inl hnull =>
      rw [hnull]
      rfl
    | inr hnode =>
      obtain ⟨b, hb, hmatch⟩ := hnode
      rw [hb]
      exact if_pos hmatch
  | cons a as ih =>
    obtain ⟨n, hn⟩ : ∃ n, fuel = n + 1 := ⟨fuel - 1, by omega⟩
    have hturn : findTurn key hash k x T p = some (.inl (.next a)) := by
      rw [findTurn, h.1]
      exact if_neg (hne a (List.mem_cons_self ..))
    rw [List.length_cons, hn] at hfuel
    rw [hn, Looping.loop_inl hturn]
    exact ih h.2 (fun b hb => hne b (List.mem_cons_of_mem _ hb)) (by omega)

end Walk

section Write

/-- The place is not in an array that is deleted. -/
def Live (T : HashTable ι) : Slot ι → Prop
  | .bucket array _ => array = T.array
  | .next _ => True

@[simp] theorem write_length : (T.write p v).length = T.length := by
  unfold write
  cases p with
  | bucket array i => dsimp only; split_ifs <;> rfl
  | next a => rfl

@[simp] theorem write_array : (T.write p v).array = T.array := by
  unfold write
  cases p with
  | bucket array i => dsimp only; split_ifs <;> rfl
  | next a => rfl

@[simp] theorem write_elem : (T.write p v).elem = T.elem := by
  unfold write
  cases p with
  | bucket array i => dsimp only; split_ifs <;> rfl
  | next a => rfl

theorem read_write (h : Live T p) : (T.write p v).read p = v := by
  cases p with
  | bucket array i =>
    have harray : array = T.array := h
    simp [write, read, harray]
  | next a => exact Function.update_self ..

theorem read_write_of_ne {p' : Slot ι} (h : p' ≠ p) : (T.write p v).read p' = T.read p' := by
  cases p with
  | bucket array i =>
    cases p' with
    | bucket array' j =>
      by_cases harray : array = T.array
      · by_cases harray' : array' = T.array
        · have hij : j ≠ i := by
            intro heq
            apply h
            rw [harray, harray', heq]
          simp [write, read, harray, harray', hij]
        · simp [read, harray']
      · simp [write, harray]
    | next b =>
      by_cases harray : array = T.array <;> simp [write, read, harray]
  | next a =>
    cases p' with
    | bucket array' j => rfl
    | next b =>
      have hba : b ≠ a := fun heq => h (heq ▸ rfl)
      exact Function.update_of_ne hba _ _

/-- A chain ends in the pointer that is written behind it. -/
theorem segment_write (h : Segment T.next (T.read p) xs q) (hp : Live T p)
    (hnd : xs.Nodup) (hnot : ∀ a ∈ xs, p ≠ .next a) :
    Segment (T.write (endSlot p xs) v).next ((T.write (endSlot p xs) v).read p) xs v := by
  induction xs generalizing p with
  | nil => exact read_write hp
  | cons a as ih =>
    have hnd' := List.nodup_cons.mp hnd
    have hne : p ≠ endSlot (.next a) as := by
      cases endSlot_mem (.next a) as with
      | inl hend =>
        rw [hend]
        exact hnot a (List.mem_cons_self ..)
      | inr hend =>
        obtain ⟨b, hb, hend⟩ := hend
        rw [hend]
        exact hnot b (List.mem_cons_of_mem _ hb)
    have hrest := ih (p := .next a) h.2 trivial hnd'.2 fun b hb heq => by
      cases heq
      exact hnd'.1 hb
    refine ⟨?_, hrest⟩
    rw [endSlot, read_write_of_ne hne]
    exact h.1

end Write

end HashTable

end MgRaffle.Utils
