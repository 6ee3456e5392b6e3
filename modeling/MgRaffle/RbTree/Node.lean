import MgRaffle.Library.RedBlack
import MgRaffle.Library.Looping

namespace MgRaffle.RbTree

open LinkedTree

inductive RBNodeType
  | red
  | black
  deriving DecidableEq, Repr

/-- The fields of the nodes, a map for each, with the pointer to the root of the tree. -/
structure Nodes (ι : Type*) extends Links ι where
  type : ι → RBNodeType

variable {ι : Type*}

namespace Nodes

variable (T : Nodes ι) (a b : ι) (c : RBNodeType) (L : Links ι)

def red : Bool := T.type a = .red

def withLinks : Nodes ι := { T with toLinks := L }

/-- Runs a function of the links, which leaves the colours alone. -/
def relink (f : Links ι → Option (Links ι)) : Option (Nodes ι) := (f T.toLinks).map T.withLinks

@[simp] theorem withLinks_type : (T.withLinks L).type = T.type := rfl

@[simp] theorem withLinks_red : (T.withLinks L).red = T.red := rfl

@[simp] theorem withLinks_links : (T.withLinks L).toLinks = L := rfl

variable [DecidableEq ι]

def setType : Nodes ι := { T with type := Function.update T.type a c }

@[simp] theorem setType_type : (T.setType a c).type b = if b = a then c else T.type b := by
  simp only [setType, Function.update_apply]

@[simp] theorem setType_red : (T.setType a c).red b =
    if b = a then decide (c = .red) else T.red b := by
  simp only [red, setType_type]
  split_ifs <;> rfl

@[simp] theorem setType_links : (T.setType a c).toLinks = T.toLinks := rfl

end Nodes

variable [DecidableEq ι]

section Rotate

/-- Where `left_rotate` has the pointer to `node` lead to `rchild`. -/
def hookLeft (p : Option ι) (node rchild : ι) (L : Links ι) : Links ι :=
  match p with
  | none => L.setRoot (some rchild)
  | some p =>
    if L.child .left p = some node then L.setChild .left p (some rchild)
    else if L.child .right p = some node then L.setChild .right p (some rchild)
    else L

/-- There is no result where the code would follow a null pointer. -/
def leftRotate (node : ι) (L : Links ι) : Option (Links ι) := do
  let p := L.parent node
  let rchild ← L.child .right node
  let L := L.setParentOf (some node) (L.child .left rchild)
  let L := L.setChild .right node (L.child .left rchild)
  let L := L.setParent rchild p
  let L := hookLeft p node rchild L
  let L := L.setChild .left rchild (some node)
  return L.setParent node (some rchild)

/-- Unlike `left_rotate`, the code of `right_rotate` and `change_rb_node` does not ask whether `node`
is the right child. -/
def hookRight (p : Option ι) (node lchild : ι) (L : Links ι) : Links ι :=
  match p with
  | none => L.setRoot (some lchild)
  | some p =>
    if L.child .left p = some node then L.setChild .left p (some lchild)
    else L.setChild .right p (some lchild)

def rightRotate (node : ι) (L : Links ι) : Option (Links ι) := do
  let p := L.parent node
  let lchild ← L.child .left node
  let L := L.setParentOf (some node) (L.child .right lchild)
  let L := L.setChild .left node (L.child .right lchild)
  let L := L.setParent lchild p
  let L := hookRight p node lchild L
  let L := L.setChild .right lchild (some node)
  return L.setParent node (some lchild)

variable {L : Links ι} {a b : ι} {p : Option ι}

theorem hookLeft_hooked
    (h : ∀ x, p = some x → ∃ e, L.child e x = some a ∧ L.child e.other x ≠ some a) :
    Links.Hooked p a b L (hookLeft p a b L) := by
  cases p with
  | none => exact Links.hooked_root L a b
  | some p =>
    obtain ⟨e, he, hother⟩ := h p rfl
    cases e with
    | left =>
      rw [hookLeft, if_pos he]
      exact Links.hooked_child he hother
    | right =>
      rw [hookLeft, if_neg (by exact hother), if_pos he]
      exact Links.hooked_child he hother

theorem hookRight_hooked
    (h : ∀ x, p = some x → ∃ e, L.child e x = some a ∧ L.child e.other x ≠ some a) :
    Links.Hooked p a b L (hookRight p a b L) := by
  cases p with
  | none => exact Links.hooked_root L a b
  | some p =>
    obtain ⟨e, he, hother⟩ := h p rfl
    cases e with
    | left =>
      rw [hookRight, if_pos he]
      exact Links.hooked_child he hother
    | right =>
      rw [hookRight, if_neg (by exact hother)]
      exact Links.hooked_child he hother

theorem leftRotate_rotated (h : Links.Rotatable .left a b L) :
    ∃ L', leftRotate a L = some L' ∧ Links.Rotated .left a b L L' := by
  have hb : L.child .right a = some b := h.child
  refine ⟨_, by simp only [leftRotate, hb, Option.bind_eq_bind, Option.bind_some,
    Links.setParentOf_child]; rfl, Links.rotated_of_hooked h ?_⟩
  apply hookLeft_hooked
  intro x hx
  simpa [(h.above x hx).1] using h.oneSide x hx

theorem rightRotate_rotated (h : Links.Rotatable .right a b L) :
    ∃ L', rightRotate a L = some L' ∧ Links.Rotated .right a b L L' := by
  have hb : L.child .left a = some b := h.child
  refine ⟨_, by simp only [rightRotate, hb, Option.bind_eq_bind, Option.bind_some,
    Links.setParentOf_child]; rfl, Links.rotated_of_hooked h ?_⟩
  apply hookRight_hooked
  intro x hx
  simpa [(h.above x hx).1] using h.oneSide x hx

/-- The rotation that brings up the child away from side `d`. -/
def rotate (d : Side) (node : ι) (L : Links ι) : Option (Links ι) :=
  match d with
  | .left => leftRotate node L
  | .right => rightRotate node L

theorem rotate_rotated {d : Side} (h : Links.Rotatable d a b L) :
    ∃ L', rotate d a L = some L' ∧ Links.Rotated d a b L L' := by
  cases d with
  | left => exact leftRotate_rotated h
  | right => exact rightRotate_rotated h

end Rotate

end MgRaffle.RbTree
