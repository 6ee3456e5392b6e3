import MgRaffle.Library.SearchTree
import MgRaffle.RbTree.Rebalance

namespace MgRaffle.RbTree

open LinkedTree

section Code

variable {ι : Type*} [DecidableEq ι]

/-- The fields of a node that is new: red, and without links. -/
def Nodes.init (N : Nodes ι) (a : ι) : Nodes ι :=
  (N.withLinks (((N.setParent a none).setChild .left a none).setChild .right a none)).setType a .red

/-- `_val` is a map like the other fields of the nodes; from `next` on, the addresses are free. -/
structure RBTree (α : Type*) extends Nodes ℕ where
  val : ℕ → α
  count : UInt64
  next : ℕ

/-- Where the search for a place in `insert` ends. -/
inductive Place
  | exist
  | below (p : Option ℕ)

namespace RBTree

variable {α : Type*}

def empty [Inhabited α] : RBTree α where
  parent _ := none
  child _ _ := none
  root := none
  type _ := .red
  val _ := default
  count := 0
  next := 0

def withNodes (S : RBTree α) (N : Nodes ℕ) : RBTree α := { S with toNodes := N }

/-- Allocation never fails. -/
def createNode (v : α) (S : RBTree α) : RBTree α where
  toNodes := S.toNodes.init S.next
  val := Function.update S.val S.next v
  count := S.count
  next := S.next + 1

variable [LinearOrder α]

def searchTurn (v : α) (S : RBTree α) : Option ℕ → Option (Option ℕ ⊕ Option ℕ)
  | none => some (.inr none)
  | some p =>
    if S.val p > v then some (.inl (S.child .left p))
    else if S.val p < v then some (.inl (S.child .right p))
    else some (.inr (some p))

def search (fuel : ℕ) (v : α) (S : RBTree α) : Option (Option ℕ) :=
  Looping.loop (searchTurn v S) fuel S.root

def findTurn (v : α) (S : RBTree α) :
    Option ℕ × Option ℕ → Option ((Option ℕ × Option ℕ) ⊕ Place)
  | (none, p) => some (.inr (.below p))
  | (some root, _) =>
    let p := root
    if S.val root > v then some (.inl (S.child .left root, some p))
    else if S.val p < v then some (.inl (S.child .right root, some p))
    else some (.inr .exist)

/-- The new node becomes a child of `p`. -/
def link (locate p : ℕ) (S : RBTree α) : RBTree α :=
  let L := S.setParent locate (some p)
  { S with
    toLinks := if S.val locate < S.val p then L.setChild .left p (some locate)
      else L.setChild .right p (some locate)
    count := S.count + 1 }

/-- The statements of `insert`. The value that is returned comes first; there is none where they come
to the end of the function, as they do for a new value in a tree that is not empty. -/
def insertNode (fuel : ℕ) (v : α) (S : RBTree α) : Option (Option ℤ × RBTree α) :=
  let locate := S.next
  let S := S.createNode v
  match S.root with
  | none => some (some 1, S.withNodes ((S.withLinks (S.setRoot (some locate))).setType locate .black))
  | some root =>
    (Looping.loop (findTurn v S) fuel (some root, none)).bind fun
    | .exist => some (some (-1), S)
    | .below p => p.bind fun p =>
      let S := S.link locate p
      (Looping.loop (rebalanceTurn true) fuel (locate, S.toNodes)).bind fun N =>
      N.root.map fun root => (none, S.withNodes (N.setType root .black))

/-- A call does not come back from the end of a function that has to return an `int`. -/
def insert (fuel : ℕ) (v : α) (S : RBTree α) : Option (ℤ × RBTree α) :=
  (S.insertNode fuel v).bind fun r => r.1.map fun k => (k, r.2)

/-- A run of insertions. -/
def inserts (fuel : ℕ) : List α → RBTree α → Option (RBTree α)
  | [], S => some S
  | v :: vs, S => (S.insert fuel v).bind fun r => inserts fuel vs r.2

/-- What the statements of the insertions do to the tree, whether the calls come back or not. -/
def insertNodes (fuel : ℕ) : List α → RBTree α → Option (RBTree α)
  | [], S => some S
  | v :: vs, S => (S.insertNode fuel v).bind fun r => insertNodes fuel vs r.2

end RBTree

end Code

section Search

variable {α : Type*} [LinearOrder α] {S : RBTree α} {v : α} {t : BinaryTree ℕ}
  {fs : List (Frame ℕ)} {fuel : ℕ}

namespace RBTree

theorem search_loop (v : α) (fs : List (Frame ℕ)) (h : S.Represents (fill fs t)) (hfuel : t.height < fuel) :
    Looping.loop (searchTurn v S) fuel (rootOf t) = some (rootOf (descend S.val v fs t).2) := by
  apply loop_descend (fun _ t => rootOf t) (fun _ t => rootOf t) _ _ rfl hfuel
  · exact fun _ _ => rfl
  · intro gs a l r hw
    rw [← hw] at h
    split_ifs with hlt hgt
    · rw [← h.child_node.1]
      exact if_pos hlt
    · rw [← h.child_node.2]
      exact (if_neg hlt).trans (if_pos hgt)
    · exact (if_neg hlt).trans (if_neg hgt)

/-- The place that the search for `v` ends at. -/
def place (fs : List (Frame ℕ)) : BinaryTree ℕ → Place
  | .nil => .below (above fs)
  | .node _ _ _ => .exist

theorem find_loop (v : α) (fs : List (Frame ℕ)) (h : S.Represents (fill fs t)) (hfuel : t.height < fuel) :
    Looping.loop (findTurn v S) fuel (rootOf t, above fs) =
      some (place (descend S.val v fs t).1 (descend S.val v fs t).2) := by
  apply loop_descend (fun fs t => (rootOf t, above fs)) place _ _ rfl hfuel
  · exact fun _ _ => rfl
  · intro gs a l r hw
    rw [← hw] at h
    split_ifs with hlt hgt
    · rw [← h.child_node.1]
      exact if_pos hlt
    · rw [← h.child_node.2]
      exact (if_neg hlt).trans (if_pos hgt)
    · exact (if_neg hlt).trans (if_neg hgt)

end RBTree

end Search

end MgRaffle.RbTree
