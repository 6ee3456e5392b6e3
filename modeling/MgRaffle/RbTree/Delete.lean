import MgRaffle.RbTree.Core

namespace MgRaffle.RbTree

open LinkedTree

variable {ι : Type*} [DecidableEq ι]

section Code

def deleteLeafNode (leaf : ι) (N : Nodes ι) : Option (Nodes ι) := do
  if N.root = some leaf then
    return N.withLinks (N.setRoot none)
  else
    let p ← N.parent leaf
    let side := if N.child .left p = some leaf then Side.left else Side.right
    return N.withLinks (N.setChild side p none)

/-- The nodes take over the links of each other. -/
def exchange (n1 n2 : ι) (L : Links ι) : Links ι :=
  let n1p := L.parent n1
  let n2p := L.parent n2
  let tmp := L.child .left n1
  let L := L.setChild .left n1 (L.child .left n2)
  let L := L.setChild .left n2 tmp
  let tmp := L.child .right n1
  let L := L.setChild .right n1 (L.child .right n2)
  let L := L.setChild .right n2 tmp
  let L := L.setParent n1 n2p
  L.setParent n2 n1p

/-- The node `n1` is the one higher up. The parent links of the children are left as they are. -/
def changeRbNode (n1 n2 : ι) (changeType : Bool) (N : Nodes ι) : Option (Nodes ι) := do
  if n1 = n2 then return N
  else
    let n1p := N.parent n1
    let n2p := N.parent n2
    let L := hookRight n1p n1 n2 (exchange n1 n2 N.toLinks)
    let n2p ← n2p
    let L := hookRight (some n2p) n2 n1 L
    let N := N.withLinks L
    return if changeType then (N.setType n1 (N.type n2)).setType n2 (N.type n1) else N

def replaceTurn (N : Nodes ι) (r : ι) : Option (ι ⊕ ι) :=
  match N.child .left r with
  | some l => some (.inl l)
  | none => some (.inr r)

def findRightReplaceNode (fuel : ℕ) (n : ι) (N : Nodes ι) : Option ι :=
  (N.child .right n).bind (Looping.loop (replaceTurn N) fuel)

/-- `c == nullptr || rb_node_is_black(c)` -/
def noneOrBlack (N : Nodes ι) (c : Option ι) : Bool := c.all fun a => !N.red a

/-- Whether both children of the sibling are black, as the code asks it of the right sibling. -/
def bothBlackRight (b : ι) (N : Nodes ι) : Option Bool :=
  some (noneOrBlack N (N.child .left b) && noneOrBlack N (N.child .right b))

/-- As it asks it of the left sibling: the second question is about the left child again. -/
def bothBlackLeft (b : ι) (N : Nodes ι) : Option Bool :=
  if noneOrBlack N (N.child .left b) then
    match N.child .right b with
    | none => some true
    | some _ => (N.child .left b).map fun l => !N.red l
  else some false

/-- A red sibling is rotated away; its inner child, which is black, becomes the sibling `b`. -/
def blackenSibling (d : Side) (p b : ι) (N : Nodes ι) : Option (ι × Nodes ι) := do
  if N.red b then
    let N ← ((N.setType b .black).setType p .red).relink (rotate d p)
    let b ← N.child d.other p
    return (b, N)
  else return (b, N)

/-- The outer child of the sibling is red afterwards. -/
def reddenOuter (d : Side) (p b : ι) (N : Nodes ι) : Option (ι × Nodes ι) := do
  let outer ← N.child d.other b
  if N.red outer then return (b, N)
  else
    let inner ← N.child d b
    let N ← ((N.setType inner .black).setType b .red).relink (rotate d.other b)
    let b ← N.child d.other p
    return (b, N)

def borrow (d : Side) (p b : ι) (N : Nodes ι) : Option (Nodes ι) := do
  let N := (N.setType b (N.type p)).setType p .black
  let outer ← N.child d.other b
  (N.setType outer .black).relink (rotate d p)

/-- A turn of the loop in `delete_rb_node` for a node on side `d` of its parent `p`. -/
def fixSide (d : Side) (bothBlack : ι → Nodes ι → Option Bool) (p node : ι) (N : Nodes ι) :
    Option ((ι × Option ι × Nodes ι) ⊕ (ι × Nodes ι)) := do
  let b ← N.child d.other p
  let (b, N) ← blackenSibling d p b N
  match bothBlack b N with
  | none => none
  | some true => return .inl (p, N.parent p, N.setType b .red)
  | some false =>
    let (b, N) ← reddenOuter d p b N
    let N ← borrow d p b N
    return .inr (node, N)

def fixLeft (p node : ι) (N : Nodes ι) : Option ((ι × Option ι × Nodes ι) ⊕ (ι × Nodes ι)) :=
  fixSide .left bothBlackRight p node N

def fixRight (p node : ι) (N : Nodes ι) : Option ((ι × Option ι × Nodes ι) ⊕ (ι × Nodes ι)) :=
  fixSide .right bothBlackLeft p node N

def fixTurn : ι × Option ι × Nodes ι → Option ((ι × Option ι × Nodes ι) ⊕ (ι × Nodes ι))
  | (node, p, N) =>
    if N.red node ∨ N.root = some node then some (.inr (node, N))
    else do
      let p ← p
      if N.child .left p = some node then fixLeft p node N else fixRight p node N

/-- `delete_rb_node` from where the node `d` has at most one child. -/
def unlinkNode (fuel : ℕ) (d : ι) (N : Nodes ι) : Option (Nodes ι) := do
  if N.red d then deleteLeafNode d N
  else match N.child .left d with
    | some l =>
      let N ← changeRbNode d l true N
      deleteLeafNode d N
    | none => match N.child .right d with
      | some r =>
        let N ← changeRbNode d r true N
        deleteLeafNode d N
      | none =>
        let (node, N) ← Looping.loop fixTurn fuel (d, N.parent d, N)
        deleteLeafNode d (N.setType node .black)

def removeNode (fuel : ℕ) (d : ι) (N : Nodes ι) : Option (Nodes ι) := do
  if N.child .left d ≠ none ∧ N.child .right d ≠ none then
    let r ← findRightReplaceNode fuel d N
    let N ← changeRbNode d r true N
    unlinkNode fuel d N
  else unlinkNode fuel d N

def MgRbTree.deleteRbNode (fuel : ℕ) (dnode : ι) (T : MgRbTree ι) : Option (MgRbTree ι) := do
  match ← T.searchRbNode fuel dnode false with
  | none => return T
  | some d => return T.withNodes (← removeNode fuel d T.toNodes)

end Code

end MgRaffle.RbTree
