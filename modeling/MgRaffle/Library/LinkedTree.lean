import Mathlib.Tactic
import Mathlib.Data.Tree.Basic

namespace LinkedTree

variable {ι : Type*}

inductive Side
  | left
  | right
  deriving DecidableEq, Repr

namespace Side

def other : Side → Side
  | .left => .right
  | .right => .left

@[simp] theorem other_left : left.other = right := rfl

@[simp] theorem other_right : right.other = left := rfl

@[simp] theorem other_other (d : Side) : d.other.other = d := by cases d <;> rfl

@[simp] theorem other_ne (d : Side) : d.other ≠ d := by cases d <;> simp

theorem eq_or_eq_other (d e : Side) : e = d ∨ e = d.other := by cases d <;> cases e <;> simp

end Side

section Trees

/-- The tree with `t` on side `d` of its root, and `u` on the other side. -/
def join (d : Side) (a : ι) (t u : BinaryTree ι) : BinaryTree ι :=
  match d with
  | .left => .node a t u
  | .right => .node a u t

def inorder : BinaryTree ι → List ι
  | .nil => []
  | .node a l r => inorder l ++ a :: inorder r

def rootOf : BinaryTree ι → Option ι
  | .nil => none
  | .node a _ _ => some a

/-- A step down from the node `id`: to its child on `side`, past the other one. -/
structure Frame (ι : Type*) where
  side : Side
  id : ι
  sibling : BinaryTree ι
  deriving DecidableEq, Repr

namespace Frame

def attach (f : Frame ι) (t : BinaryTree ι) : BinaryTree ι := join f.side f.id t f.sibling

def before (f : Frame ι) : List ι :=
  match f.side with
  | .left => []
  | .right => inorder f.sibling ++ [f.id]

def after (f : Frame ι) : List ι :=
  match f.side with
  | .left => f.id :: inorder f.sibling
  | .right => []

end Frame

/-- The tree that has `t` at the end of the path; the first frame is the last step. -/
def fill : List (Frame ι) → BinaryTree ι → BinaryTree ι
  | [], t => t
  | f :: fs, t => fill fs (f.attach t)

def before : List (Frame ι) → List ι
  | [] => []
  | f :: fs => before fs ++ f.before

def after : List (Frame ι) → List ι
  | [] => []
  | f :: fs => f.after ++ after fs

/-- The node that the path ends below. -/
def above (fs : List (Frame ι)) : Option ι := fs.head?.map Frame.id

@[simp] theorem above_nil : above ([] : List (Frame ι)) = none := rfl

@[simp] theorem above_cons (f : Frame ι) (fs : List (Frame ι)) : above (f :: fs) = some f.id := rfl

/-- The nodes along a path, and beside it. -/
def pathNodes (fs : List (Frame ι)) : List ι := fs.flatMap fun f => f.id :: inorder f.sibling

variable {d : Side} {a b x : ι} {t u v : BinaryTree ι} {f : Frame ι} {fs gs : List (Frame ι)}

@[simp] theorem pathNodes_nil : pathNodes ([] : List (Frame ι)) = [] := rfl

theorem mem_pathNodes_cons :
    x ∈ pathNodes (f :: fs) ↔ x = f.id ∨ x ∈ inorder f.sibling ∨ x ∈ pathNodes fs := by
  simp only [pathNodes, List.flatMap_cons, List.cons_append, List.mem_cons, List.mem_append]

theorem above_mem (h : above fs = some x) : x ∈ pathNodes fs := by
  cases fs with
  | nil => cases h
  | cons f fs =>
    cases h
    exact mem_pathNodes_cons.mpr (Or.inl rfl)

@[simp] theorem inorder_nil : inorder (.nil : BinaryTree ι) = [] := rfl

@[simp] theorem inorder_node (a : ι) (l r : BinaryTree ι) :
    inorder (.node a l r) = inorder l ++ a :: inorder r := rfl

theorem length_inorder (t : BinaryTree ι) : (inorder t).length = t.numNodes := by
  induction t with
  | nil => rfl
  | node a l r ihl ihr =>
    simp only [inorder_node, List.length_append, List.length_cons, ihl, ihr, BinaryTree.numNodes]
    omega

@[simp] theorem fill_nil (t : BinaryTree ι) : fill [] t = t := rfl

@[simp] theorem fill_cons (f : Frame ι) (fs : List (Frame ι)) (t : BinaryTree ι) :
    fill (f :: fs) t = fill fs (f.attach t) := rfl

theorem fill_append (gs fs : List (Frame ι)) (t : BinaryTree ι) :
    fill (gs ++ fs) t = fill fs (fill gs t) := by
  induction gs generalizing t with
  | nil => rfl
  | cons g gs ih => exact ih _

theorem inorder_attach (f : Frame ι) (t : BinaryTree ι) :
    inorder (f.attach t) = f.before ++ (inorder t ++ f.after) := by
  unfold Frame.attach Frame.before Frame.after join
  cases f.side <;> simp

theorem inorder_fill (fs : List (Frame ι)) (t : BinaryTree ι) :
    inorder (fill fs t) = before fs ++ (inorder t ++ after fs) := by
  induction fs generalizing t with
  | nil => simp [before, after]
  | cons f fs ih =>
    rw [fill_cons, ih, inorder_attach, before, after]
    simp only [List.append_assoc]

theorem inorder_fill_congr (h : inorder t = inorder u) :
    inorder (fill fs t) = inorder (fill fs u) := by
  rw [inorder_fill, inorder_fill, h]

theorem inorder_rotated (d : Side) (a b : ι) (t u v : BinaryTree ι) :
    inorder (join d b (join d a t u) v) = inorder (join d a t (join d b u v)) := by
  cases d <;> simp [join]

theorem mem_inorder_join :
    x ∈ inorder (join d a t u) ↔ x = a ∨ x ∈ inorder t ∨ x ∈ inorder u := by
  cases d <;> simp only [join, inorder_node, List.mem_append, List.mem_cons] <;> tauto

theorem mem_join_self : a ∈ inorder (join d a t u) := mem_inorder_join.mpr (Or.inl rfl)

theorem nodup_join : (inorder (join d a t u)).Nodup ↔ (inorder t).Nodup ∧ (inorder u).Nodup ∧
    a ∉ inorder t ∧ a ∉ inorder u ∧ (inorder t).Disjoint (inorder u) := by
  cases d
  · simp only [join, inorder_node, List.nodup_append', List.nodup_cons, List.disjoint_cons_right]
    tauto
  · simp only [join, inorder_node, List.nodup_append', List.nodup_cons, List.disjoint_cons_right]
    rw [List.disjoint_comm]
    tauto

theorem rootOf_mem (h : rootOf t = some x) : x ∈ inorder t := by
  cases t with
  | nil => cases h
  | node a l r =>
    cases h
    simp

theorem join_other (d : Side) (a : ι) (t u : BinaryTree ι) : join d.other a t u = join d a u t := by
  cases d <;> rfl

/-- Every tree but the empty one has a root. -/
theorem exists_join (d : Side) (h : t ≠ .nil) : ∃ a u v, t = join d a u v := by
  cases t with
  | nil => exact absurd rfl h
  | node a l r =>
    cases d with
    | left => exact ⟨a, l, r, rfl⟩
    | right => exact ⟨a, r, l, rfl⟩

/-- The subtree on side `d`. -/
def sub (d : Side) : BinaryTree ι → BinaryTree ι
  | .nil => .nil
  | .node _ l r => match d with
    | .left => l
    | .right => r

@[simp] theorem sub_join (d : Side) (a : ι) (t u : BinaryTree ι) :
    sub d (join d a t u) = t ∧ sub d.other (join d a t u) = u := by cases d <;> exact ⟨rfl, rfl⟩

theorem join_ne_nil : join d a t u ≠ .nil := by cases d <;> exact nofun

theorem rootOf_join : rootOf (join d a t u) = some a := by cases d <;> rfl

/-- A path that takes a step has the root on it. -/
theorem rootOf_fill (f : Frame ι) (fs : List (Frame ι)) :
    ∃ r ∈ pathNodes (f :: fs), ∀ t, rootOf (fill (f :: fs) t) = some r := by
  induction fs generalizing f with
  | nil => exact ⟨f.id, mem_pathNodes_cons.mpr (Or.inl rfl), fun t => rootOf_join⟩
  | cons g gs ih =>
    obtain ⟨r, hr, hroot⟩ := ih g
    exact ⟨r, mem_pathNodes_cons.mpr (Or.inr (Or.inr hr)), fun t => hroot _⟩

theorem perm_attach (f : Frame ι) (t : BinaryTree ι) :
    (inorder (f.attach t)).Perm (inorder t ++ f.id :: inorder f.sibling) := by
  unfold Frame.attach join
  cases f.side
  · exact .refl _
  · simp only [inorder_node]
    refine List.perm_append_comm.trans ?_
    rw [List.cons_append]
    exact List.perm_middle.symm

theorem perm_fill (fs : List (Frame ι)) (t : BinaryTree ι) :
    (inorder (fill fs t)).Perm (inorder t ++ pathNodes fs) := by
  induction fs generalizing t with
  | nil => simp
  | cons f fs ih =>
    rw [fill_cons, pathNodes, List.flatMap_cons, ← List.append_assoc]
    exact (ih _).trans ((perm_attach f t).append_right _)

theorem mem_inorder_fill : x ∈ inorder (fill fs t) ↔ x ∈ inorder t ∨ x ∈ pathNodes fs := by
  rw [(perm_fill fs t).mem_iff, List.mem_append]

theorem nodup_fill : (inorder (fill fs t)).Nodup ↔
    (inorder t).Nodup ∧ (pathNodes fs).Nodup ∧ (inorder t).Disjoint (pathNodes fs) := by
  rw [(perm_fill fs t).nodup_iff, List.nodup_append']

/-- Every subtree is at the end of a path. -/
theorem exists_fill (h : x ∈ inorder t) : ∃ fs l r, t = fill fs (.node x l r) := by
  induction t with
  | nil => cases h
  | node a l r ihl ihr =>
    rcases List.mem_append.mp h with h | h
    · obtain ⟨fs, l', r', rfl⟩ := ihl h
      exact ⟨fs ++ [⟨.left, a, r⟩], l', r', by rw [fill_append]; rfl⟩
    · rcases List.mem_cons.mp h with rfl | h
      · exact ⟨[], l, r, rfl⟩
      · obtain ⟨fs, l', r', rfl⟩ := ihr h
        exact ⟨fs ++ [⟨.right, a, l⟩], l', r', by rw [fill_append]; rfl⟩

end Trees

/-- The pointers of the nodes, one map for each field, and the pointer to the root. -/
structure Links (ι : Type*) where
  parent : ι → Option ι
  child : Side → ι → Option ι
  root : Option ι

namespace Links

section Setters

variable (L : Links ι) (d e : Side) (a b : ι) (c : Option ι)

def setRoot : Links ι := { L with root := c }

@[simp] theorem setRoot_parent : (L.setRoot c).parent b = L.parent b := rfl

@[simp] theorem setRoot_child : (L.setRoot c).child d b = L.child d b := rfl

@[simp] theorem setRoot_root : (L.setRoot c).root = c := rfl

variable [DecidableEq ι]

def setParent : Links ι :=
  { L with parent := Function.update L.parent a c }

def setChild : Links ι :=
  { L with child := Function.update L.child d (Function.update (L.child d) a c) }

@[simp] theorem setParent_parent :
    (L.setParent a c).parent b = if b = a then c else L.parent b := by
  simp only [setParent, Function.update_apply]

@[simp] theorem setParent_child : (L.setParent a c).child d b = L.child d b := rfl

@[simp] theorem setParent_root : (L.setParent a c).root = L.root := rfl

@[simp] theorem setChild_parent : (L.setChild d a c).parent b = L.parent b := rfl

@[simp] theorem setChild_child : (L.setChild d a c).child e b =
    if e = d ∧ b = a then c else L.child e b := by
  simp only [setChild, Function.update_apply]
  by_cases hd : e = d
  · subst hd
    simp [Function.update_apply]
  · simp [hd]

@[simp] theorem setChild_root : (L.setChild d a c).root = L.root := rfl

/-- The parent link of the node that `q` leads to, if any, is set. -/
def setParentOf (q : Option ι) : Links ι :=
  match q with
  | none => L
  | some x => L.setParent x c

@[simp] theorem setParentOf_parent (q : Option ι) :
    (L.setParentOf c q).parent b = if q = some b then c else L.parent b := by
  cases q with
  | none => rfl
  | some x =>
    simp only [setParentOf, setParent_parent, Option.some.injEq]
    exact if_congr eq_comm rfl rfl

@[simp] theorem setParentOf_child (q : Option ι) :
    (L.setParentOf c q).child d b = L.child d b := by cases q <;> rfl

@[simp] theorem setParentOf_root (q : Option ι) : (L.setParentOf c q).root = L.root := by
  cases q <;> rfl

end Setters

/-- Below the node `p` the pointer `c` leads to the tree, whose parent and child links agree. -/
def Holds (L : Links ι) : Option ι → Option ι → BinaryTree ι → Prop
  | _, c, .nil => c = none
  | p, c, .node a l r => c = some a ∧ L.parent a = p ∧
    L.Holds (some a) (L.child .left a) l ∧ L.Holds (some a) (L.child .right a) r

/-- The pointer `c` is the one at the end of the path. -/
def HoldsPath (L : Links ι) : List (Frame ι) → Option ι → Prop
  | [], c => L.root = c
  | f :: fs, c => L.child f.side f.id = c ∧ L.parent f.id = above fs ∧
    L.Holds (some f.id) (L.child f.side.other f.id) f.sibling ∧ L.HoldsPath fs (some f.id)

/-- The links are those of the tree. -/
structure Represents (L : Links ι) (t : BinaryTree ι) : Prop where
  holds : L.Holds none L.root t
  nodup : (inorder t).Nodup

variable {L L' : Links ι} {d : Side} {a b x : ι} {p c : Option ι} {t u v : BinaryTree ι}
  {f : Frame ι} {fs gs : List (Frame ι)}

theorem holds_join : L.Holds p c (join d a t u) ↔ c = some a ∧ L.parent a = p ∧
    L.Holds (some a) (L.child d a) t ∧ L.Holds (some a) (L.child d.other a) u := by
  cases d
  · rfl
  · simp only [join, Holds, Side.other_right]
    tauto

theorem Holds.eq_rootOf (h : L.Holds p c t) : c = rootOf t := by
  cases t with
  | nil => exact h
  | node a l r => exact h.1

theorem Holds.mem (h : L.Holds p (some x) t) : x ∈ inorder t := rootOf_mem h.eq_rootOf.symm

/-- The links of a tree are all that it depends on. -/
theorem Holds.congr (h : L.Holds p c t)
    (hL : ∀ x ∈ inorder t, L'.parent x = L.parent x ∧ ∀ d, L'.child d x = L.child d x) :
    L'.Holds p c t := by
  induction t generalizing p c with
  | nil => exact h
  | node a l r ihl ihr =>
    obtain ⟨hc, hp, hl, hr⟩ := h
    obtain ⟨hpar, hch⟩ := hL a (by simp)
    refine ⟨hc, hpar.trans hp, ?_, ?_⟩
    · rw [hch]
      exact ihl hl fun x hx => hL x (by simp [hx])
    · rw [hch]
      exact ihr hr fun x hx => hL x (by simp [hx])

/-- A tree is put below another node: the parent link of its root changes. -/
theorem Holds.reparent {p' : Option ι} (h : L.Holds p c t) (hnd : (inorder t).Nodup)
    (hroot : ∀ x, c = some x → L'.parent x = p')
    (hpar : ∀ x ∈ inorder t, c ≠ some x → L'.parent x = L.parent x)
    (hch : ∀ x ∈ inorder t, ∀ d, L'.child d x = L.child d x) : L'.Holds p' c t := by
  cases t with
  | nil => exact h
  | node a l r =>
    obtain ⟨hc, hp, hl, hr⟩ := h
    obtain ⟨-, -, hal, har, -⟩ := (nodup_join (d := .left)).mp hnd
    subst hc
    refine ⟨rfl, hroot a rfl, ?_, ?_⟩
    · rw [hch a (by simp)]
      apply hl.congr
      intro x hx
      exact ⟨hpar x (by simp [hx]) (by rintro ⟨⟩; exact hal hx), hch x (by simp [hx])⟩
    · rw [hch a (by simp)]
      apply hr.congr
      intro x hx
      exact ⟨hpar x (by simp [hx]) (by rintro ⟨⟩; exact har hx), hch x (by simp [hx])⟩

theorem holds_fill : L.Holds none L.root (fill fs t) ↔
    ∃ c, L.HoldsPath fs c ∧ L.Holds (above fs) c t := by
  induction fs generalizing t with
  | nil =>
    constructor
    · intro h
      exact ⟨L.root, rfl, h⟩
    · rintro ⟨c, rfl, h⟩
      exact h
  | cons f fs ih =>
    rw [fill_cons, ih]
    constructor
    · rintro ⟨c, hpath, h⟩
      obtain ⟨rfl, hp, ht, hs⟩ := holds_join.mp h
      exact ⟨_, ⟨rfl, hp, hs, hpath⟩, ht⟩
    · rintro ⟨c, ⟨rfl, hp, hs, hpath⟩, ht⟩
      exact ⟨some f.id, hpath, holds_join.mpr ⟨rfl, hp, ht, hs⟩⟩

/-- Reads the tree below a pointer, as deep as `n` links. -/
def toTree (L : Links ι) : ℕ → Option ι → BinaryTree ι
  | 0, _ => .nil
  | _ + 1, none => .nil
  | n + 1, some a => .node a (L.toTree n (L.child .left a)) (L.toTree n (L.child .right a))

theorem Holds.toTree_eq {n : ℕ} (h : L.Holds p c t) (hn : t.height ≤ n) : L.toTree n c = t := by
  induction t generalizing p c n with
  | nil =>
    obtain rfl : c = none := h
    cases n <;> rfl
  | node a l r ihl ihr =>
    obtain ⟨rfl, -, hl, hr⟩ := h
    rw [BinaryTree.height] at hn
    obtain ⟨m, rfl⟩ : ∃ m, n = m + 1 := ⟨n - 1, by omega⟩
    rw [toTree, ihl hl (by omega), ihr hr (by omega)]

/-- The links belong to one tree only. -/
theorem Represents.unique (h : L.Represents t) (h' : L.Represents u) : t = u :=
  (h.holds.toTree_eq (le_max_left t.height u.height)).symm.trans
    (h'.holds.toTree_eq (le_max_right t.height u.height))

theorem Represents.root_eq (h : L.Represents t) : L.root = rootOf t := h.holds.eq_rootOf

theorem Represents.parent_eq (h : L.Represents (fill fs t)) (hx : rootOf t = some x) :
    L.parent x = above fs := by
  obtain ⟨c, -, ht⟩ := holds_fill.mp h.holds
  cases t with
  | nil => cases hx
  | node a l r =>
    cases hx
    exact ht.2.1

theorem Represents.child_eq (h : L.Represents (fill (f :: fs) t)) :
    L.child f.side f.id = rootOf t ∧ L.child f.side.other f.id = rootOf f.sibling := by
  obtain ⟨c, ⟨rfl, -, hs, -⟩, ht⟩ := holds_fill.mp h.holds
  exact ⟨ht.eq_rootOf, hs.eq_rootOf⟩

theorem Represents.child_join (h : L.Represents (fill fs (join d a t u))) :
    L.child d a = rootOf t ∧ L.child d.other a = rootOf u := by
  obtain ⟨c, -, htree⟩ := holds_fill.mp h.holds
  obtain ⟨-, -, ht, hu⟩ := holds_join.mp htree
  exact ⟨ht.eq_rootOf, hu.eq_rootOf⟩

theorem Represents.child_node {l r : BinaryTree ι} (h : L.Represents (fill fs (.node a l r))) :
    L.child .left a = rootOf l ∧ L.child .right a = rootOf r := by
  exact h.child_join (d := .left)

theorem Represents.root_ne (h : L.Represents (fill (f :: fs) t)) (hx : x ∈ inorder t) :
    L.root ≠ some x := by
  obtain ⟨r, hr, htop⟩ := rootOf_fill f fs
  rw [h.root_eq, htop]
  rintro ⟨⟩
  exact (nodup_fill.mp h.nodup).2.2 hx hr

theorem Represents.above_ne (h : L.Represents (fill fs t)) (hx : x ∈ inorder t) :
    above fs ≠ some x := fun habove => (nodup_fill.mp h.nodup).2.2 hx (above_mem habove)

/-- A node is on one side of the node above it. -/
theorem Represents.child_eq_iff {e : Side} (h : L.Represents (fill (f :: fs) t))
    (hx : rootOf t = some x) : L.child e f.id = some x ↔ e = f.side := by
  obtain ⟨hside, hother⟩ := h.child_eq
  obtain ⟨-, -, hdis⟩ := nodup_fill.mp h.nodup
  constructor
  · intro he
    rcases f.side.eq_or_eq_other e with rfl | rfl
    · rfl
    · exfalso
      apply hdis (rootOf_mem hx)
      exact mem_pathNodes_cons.mpr (Or.inr (Or.inl (rootOf_mem (hother.symm.trans he))))
  · rintro rfl
    exact hside.trans hx

theorem HoldsPath.congr (h : L.HoldsPath fs c) (hroot : L'.root = L.root)
    (hL : ∀ x ∈ pathNodes fs, L'.parent x = L.parent x ∧ ∀ d, L'.child d x = L.child d x) :
    L'.HoldsPath fs c := by
  induction fs generalizing c with
  | nil => exact hroot.trans h
  | cons f fs ih =>
    obtain ⟨hc, hp, hs, hpath⟩ := h
    obtain ⟨hpar, hch⟩ := hL f.id (mem_pathNodes_cons.mpr (Or.inl rfl))
    refine ⟨(hch _).trans hc, hpar.trans hp, ?_, ?_⟩
    · rw [hch]
      apply hs.congr
      intro x hx
      exact hL x (mem_pathNodes_cons.mpr (Or.inr (Or.inl hx)))
    · apply ih hpath
      intro x hx
      exact hL x (mem_pathNodes_cons.mpr (Or.inr (Or.inr hx)))

/-- Another pointer is put at the end of the path. -/
theorem HoldsPath.relink {c' : Option ι} (h : L.HoldsPath fs c)
    (hnil : fs = [] → L'.root = c')
    (hroot : fs ≠ [] → L'.root = L.root)
    (hpar : ∀ x ∈ pathNodes fs, L'.parent x = L.parent x)
    (hend : ∀ f ∈ fs.head?, L'.child f.side f.id = c')
    (hch : ∀ x ∈ pathNodes fs, ∀ d, (∀ f ∈ fs.head?, ¬ (x = f.id ∧ d = f.side)) →
      L'.child d x = L.child d x)
    (hnd : (pathNodes fs).Nodup) : L'.HoldsPath fs c' := by
  cases fs with
  | nil => exact hnil rfl
  | cons f fs =>
    obtain ⟨hc, hp, hs, hpath⟩ := h
    have hmem (x : ι) (hx : x ∈ inorder f.sibling ∨ x ∈ pathNodes fs) : x ∈ pathNodes (f :: fs) :=
      mem_pathNodes_cons.mpr (Or.inr hx)
    have hne (x : ι) (hx : x ∈ inorder f.sibling ∨ x ∈ pathNodes fs) : x ≠ f.id := by
      rintro rfl
      rw [pathNodes, List.flatMap_cons, List.cons_append, List.nodup_cons] at hnd
      exact hnd.1 (List.mem_append.mpr hx)
    have hkeep (x : ι) (hx : x ∈ inorder f.sibling ∨ x ∈ pathNodes fs) :
        L'.parent x = L.parent x ∧ ∀ d, L'.child d x = L.child d x := by
      refine ⟨hpar x (hmem x hx), fun d => hch x (hmem x hx) d ?_⟩
      rintro g ⟨⟩ ⟨hxg, -⟩
      exact hne x hx hxg
    have hself : f.id ∈ pathNodes (f :: fs) := mem_pathNodes_cons.mpr (Or.inl rfl)
    refine ⟨hend f rfl, (hpar _ hself).trans hp, ?_, ?_⟩
    · rw [hch f.id hself f.side.other (by rintro g ⟨⟩ ⟨-, hd⟩; exact absurd hd f.side.other_ne)]
      exact hs.congr fun x hx => hkeep x (Or.inl hx)
    · exact hpath.congr (hroot (List.cons_ne_nil _ _)) fun x hx => hkeep x (Or.inr hx)

/-- Another tree is put at the end of a path. -/
theorem Represents.replace (h : L.Represents (fill (f :: fs) t)) (hu : L'.Holds (some f.id) c u)
    (hnd : (inorder u).Nodup ∧ (inorder u).Disjoint (pathNodes (f :: fs)))
    (hroot : L'.root = L.root) (hpar : ∀ x ∈ pathNodes (f :: fs), L'.parent x = L.parent x)
    (hend : L'.child f.side f.id = c)
    (hch : ∀ x ∈ pathNodes (f :: fs), ∀ d, ¬ (x = f.id ∧ d = f.side) →
      L'.child d x = L.child d x) : L'.Represents (fill (f :: fs) u) := by
  obtain ⟨c', hpath, -⟩ := holds_fill.mp h.holds
  obtain ⟨-, hndp, -⟩ := nodup_fill.mp h.nodup
  constructor
  · refine holds_fill.mpr ⟨c, ?_, hu⟩
    apply hpath.relink _ _ hpar _ _ hndp
    · intro hnil
      cases hnil
    · exact fun _ => hroot
    · rintro g ⟨⟩
      exact hend
    · exact fun x hx d hd => hch x hx d (hd f rfl)
  · exact nodup_fill.mpr ⟨hnd.1, hndp, hnd.2⟩

/-- A new leaf is put at the end of a path. -/
theorem Represents.graft (h : L.Represents (fill (f :: fs) .nil)) (ha : a ∉ pathNodes (f :: fs))
    (hparent : L'.parent a = some f.id) (hleaf : ∀ e, L'.child e a = none)
    (hroot : L'.root = L.root) (hpar : ∀ x ∈ pathNodes (f :: fs), L'.parent x = L.parent x)
    (hend : L'.child f.side f.id = some a)
    (hch : ∀ x ∈ pathNodes (f :: fs), ∀ d, ¬ (x = f.id ∧ d = f.side) →
      L'.child d x = L.child d x) : L'.Represents (fill (f :: fs) (.node a .nil .nil)) := by
  apply h.replace _ _ hroot hpar hend hch
  · exact ⟨rfl, hparent, hleaf .left, hleaf .right⟩
  · simpa using ha

theorem Represents.congr (h : L.Represents t) (hroot : L'.root = L.root)
    (hL : ∀ x ∈ inorder t, L'.parent x = L.parent x ∧ ∀ d, L'.child d x = L.child d x) :
    L'.Represents t := by
  refine ⟨?_, h.nodup⟩
  rw [hroot]
  exact h.holds.congr hL

section Rotations

/-- The node `b` is the child of `a` on the side away from `d`, and the nodes that a rotation writes
to are all different. -/
structure Rotatable (d : Side) (a b : ι) (L : Links ι) : Prop where
  child : L.child d.other a = some b
  ne : a ≠ b
  mid : ∀ x, L.child d b = some x → x ≠ a ∧ x ≠ b
  above : ∀ p, L.parent a = some p → p ≠ a ∧ p ≠ b
  oneSide : ∀ p, L.parent a = some p → ∃ e, L.child e p = some a ∧ L.child e.other p ≠ some a

/-- The pointers after `b`, the child of `a` on the side away from `d`, has come up in its place:
`a` is now the child of `b` on side `d`, and the subtree between them has changed hands. -/
structure Rotated (d : Side) (a b : ι) (L L' : Links ι) : Prop where
  parentDown : L'.parent a = some b
  parentUp : L'.parent b = L.parent a
  parentMid : ∀ x, L.child d b = some x → L'.parent x = some a
  parentElse : ∀ x, x ≠ a → x ≠ b → L.child d b ≠ some x → L'.parent x = L.parent x
  childDown : L'.child d.other a = L.child d b
  childUp : L'.child d b = some a
  childSame : L'.child d a = L.child d a ∧ L'.child d.other b = L.child d.other b
  childAbove : ∀ p e, L.parent a = some p → L.child e p = some a → L'.child e p = some b
  childElse : ∀ x e, x ≠ a → x ≠ b → ¬ (L.parent a = some x ∧ L.child e x = some a) →
    L'.child e x = L.child e x
  root : L'.root = if L.parent a = none then some b else L.root

/-- The pointer to `a` from the node `p`, or from the root, leads to `b` instead. -/
structure Hooked (p : Option ι) (a b : ι) (L L' : Links ι) : Prop where
  parent : ∀ x, L'.parent x = L.parent x
  child : ∀ e x, p = some x → L.child e x = some a → L'.child e x = some b
  childElse : ∀ e x, ¬ (p = some x ∧ L.child e x = some a) → L'.child e x = L.child e x
  root : L'.root = if p = none then some b else L.root

theorem hooked_root (L : Links ι) (a b : ι) : Hooked none a b L (L.setRoot (some b)) where
  parent _ := rfl
  child := by simp
  childElse _ _ _ := rfl
  root := rfl

theorem hooked_child [DecidableEq ι] {L : Links ι} {d : Side} {a b p : ι} (h : L.child d p = some a)
    (hother : L.child d.other p ≠ some a) : Hooked (some p) a b L (L.setChild d p (some b)) where
  parent _ := rfl
  child e x hx hch := by
    cases hx
    rcases d.eq_or_eq_other e with rfl | rfl
    · rw [setChild_child, if_pos ⟨rfl, rfl⟩]
    · exact absurd hch hother
  childElse e x hx := by
    rw [setChild_child, if_neg]
    rintro ⟨rfl, rfl⟩
    exact hx ⟨rfl, h⟩
  root := rfl

/-- What a rotation writes besides the pointer from above. -/
theorem rotated_of_hooked [DecidableEq ι] {L L₁ : Links ι} {d : Side} {a b : ι}
    (h : Rotatable d a b L)
    (hook : Hooked (L.parent a) a b (((L.setParentOf (some a) (L.child d b)).setChild d.other a
      (L.child d b)).setParent b (L.parent a)) L₁) :
    Rotated d a b L ((L₁.setChild d b (some a)).setParent a (some b)) := by
  have hne := h.ne
  have hpa : L.parent a ≠ some a := fun hp => (h.above a hp).1 rfl
  have hpb : L.parent a ≠ some b := fun hp => (h.above b hp).2 rfl
  have hd := d.other_ne
  constructor
  · simp
  · simp [hook.parent, hne.symm]
  · intro x hx
    obtain ⟨hxa, hxb⟩ := h.mid x hx
    simp [hook.parent, hxa, hxb, hx]
  · intro x hxa hxb hx
    simp [hook.parent, hxa, hxb, hx]
  · simp [hook.childElse _ a (fun hx => hpa hx.1), hd]
  · simp
  · simp [hook.childElse _ a (fun hx => hpa hx.1), hook.childElse _ b (fun hx => hpb hx.1), hne, hd,
      hne.symm, hd.symm]
  · intro p e hp hch
    obtain ⟨hpa', hpb'⟩ := h.above p hp
    have hchild := hook.child e p hp (by simp [hpa', hch])
    simp [hpb', hchild]
  · intro x e hxa hxb hx
    have hchild := hook.childElse e x (by simpa [hxa] using hx)
    simp [hxa, hxb, hchild]
  · simp [hook.root]

/-- The node `b` hangs below `a`, the trees `t`, `u` and `v` around them, all of it apart from the
path above and from each other. -/
structure Pivot (fs : List (Frame ι)) (a b : ι) (t u v : BinaryTree ι) : Prop where
  ne : a ≠ b
  up : a ∉ inorder t ∧ a ∉ inorder u ∧ a ∉ inorder v
  down : b ∉ inorder t ∧ b ∉ inorder u ∧ b ∉ inorder v
  mid : ∀ x ∈ inorder u, x ∉ inorder t ∧ x ∉ inorder v
  path : ∀ x, x = a ∨ x = b ∨ x ∈ inorder t ∨ x ∈ inorder u ∨ x ∈ inorder v → x ∉ pathNodes fs
  nodupMid : (inorder u).Nodup
  nodupPath : (pathNodes fs).Nodup

theorem pivot_of_nodup (h : (inorder (fill fs (join d a t (join d b u v)))).Nodup) :
    Pivot fs a b t u v := by
  obtain ⟨hin, hndp, hdis⟩ := nodup_fill.mp h
  obtain ⟨-, hndb, hat, hab, htb⟩ := nodup_join.mp hin
  obtain ⟨hndu, -, hbu, hbv, huv⟩ := nodup_join.mp hndb
  simp only [mem_inorder_join, not_or] at hab
  refine ⟨hab.1, ⟨hat, hab.2.1, hab.2.2⟩, ⟨?_, hbu, hbv⟩, ?_, ?_, hndu, hndp⟩
  · exact fun hx => htb hx mem_join_self
  · intro x hx
    exact ⟨fun hxt => htb hxt (mem_inorder_join.mpr (Or.inr (Or.inl hx))), fun hxv => huv hx hxv⟩
  · intro x hx
    apply hdis
    simp only [mem_inorder_join]
    tauto

theorem Represents.rotatable (h : L.Represents (fill fs (join d a t (join d b u v)))) :
    Rotatable d a b L := by
  obtain ⟨c, hpath, htree⟩ := holds_fill.mp h.holds
  obtain ⟨rfl, hpa, -, hb⟩ := holds_join.mp htree
  obtain ⟨hcb, -, hu, -⟩ := holds_join.mp hb
  have hpivot := pivot_of_nodup h.nodup
  have hap := hpivot.path a (Or.inl rfl)
  have hbp := hpivot.path b (Or.inr (Or.inl rfl))
  have habove (p : ι) (hp : L.parent a = some p) : above fs = some p := hpa.symm.trans hp
  constructor
  · exact hcb
  · exact hpivot.ne
  · intro x hx
    have hxu := (hx ▸ hu).mem
    exact ⟨fun heq => hpivot.up.2.1 (heq ▸ hxu), fun heq => hpivot.down.2.1 (heq ▸ hxu)⟩
  · intro p hp
    have hmem := above_mem (habove p hp)
    exact ⟨fun heq => hap (heq ▸ hmem), fun heq => hbp (heq ▸ hmem)⟩
  · intro p hp
    cases fs with
    | nil => cases habove p hp
    | cons f fs =>
      cases habove p hp
      refine ⟨f.side, hpath.1, ?_⟩
      intro hs
      exact hap (mem_pathNodes_cons.mpr (Or.inr (Or.inl (hs ▸ hpath.2.2.1).mem)))

/-- The path above the two nodes leads to `b` after a rotation, and is otherwise the same. -/
theorem Rotated.holdsPath (hr : Rotated d a b L L') (hpivot : Pivot fs a b t u v)
    (hpath : L.HoldsPath fs (some a)) (hpa : L.parent a = above fs)
    (hmid : ∀ x, L.child d b = some x → x ∈ inorder u) : L'.HoldsPath fs (some b) := by
  have hap := hpivot.path a (Or.inl rfl)
  have hbp := hpivot.path b (Or.inr (Or.inl rfl))
  apply hpath.relink _ _ _ _ _ hpivot.nodupPath
  · intro hfs
    rw [hr.root, hpa, hfs]
    rfl
  · intro hfs
    rw [hr.root, hpa, if_neg]
    cases fs with
    | nil => exact absurd rfl hfs
    | cons f fs => simp
  · intro x hx
    apply hr.parentElse x (fun heq => hap (heq ▸ hx)) (fun heq => hbp (heq ▸ hx))
    intro heq
    exact hpivot.path x (Or.inr (Or.inr (Or.inr (Or.inl (hmid x heq))))) hx
  · intro f hf
    cases fs with
    | nil => cases hf
    | cons g fs =>
      cases hf
      exact hr.childAbove f.id f.side hpa hpath.1
  · intro x hx e hend
    apply hr.childElse x e (fun heq => hap (heq ▸ hx)) (fun heq => hbp (heq ▸ hx))
    rintro ⟨hup, hch⟩
    cases fs with
    | nil => cases hx
    | cons f fs =>
      rw [hpa, above_cons, Option.some.injEq] at hup
      subst hup
      rcases f.side.eq_or_eq_other e with rfl | rfl
      · exact hend f rfl ⟨rfl, rfl⟩
      · have hs := hpath.2.2.1
        rw [hch] at hs
        exact hap (mem_pathNodes_cons.mpr (Or.inr (Or.inl hs.mem)))

/-- A rotation of the pointers is a rotation of the tree. -/
theorem Rotated.represents (hr : Rotated d a b L L')
    (h : L.Represents (fill fs (join d a t (join d b u v)))) :
    L'.Represents (fill fs (join d b (join d a t u) v)) := by
  constructor
  · obtain ⟨c, hpath, htree⟩ := holds_fill.mp h.holds
    obtain ⟨rfl, hpa, ht, hb⟩ := holds_join.mp htree
    obtain ⟨hcb, -, hu, hv⟩ := holds_join.mp hb
    have hpivot := pivot_of_nodup h.nodup
    have hmid (x : ι) (hx : L.child d b = some x) : x ∈ inorder u := (hx ▸ hu).mem
    have habove (x : ι) (hx : L.parent a = some x) : x ∈ pathNodes fs :=
      above_mem (hpa.symm.trans hx)
    -- the outer trees keep their pointers, the one in the middle its pointers below its root
    have hkeep (x : ι) (hx : x ≠ a ∧ x ≠ b ∧ x ∉ inorder u ∧ x ∉ pathNodes fs) :
        L'.parent x = L.parent x ∧ ∀ d, L'.child d x = L.child d x :=
      ⟨hr.parentElse x hx.1 hx.2.1 (fun heq => hx.2.2.1 (hmid x heq)),
        fun e => hr.childElse x e hx.1 hx.2.1 fun hup => hx.2.2.2 (habove x hup.1)⟩
    refine holds_fill.mpr ⟨some b, hr.holdsPath hpivot hpath hpa hmid,
      holds_join.mpr ⟨rfl, hr.parentUp.trans hpa, ?_, ?_⟩⟩
    · rw [hr.childUp]
      refine holds_join.mpr ⟨rfl, hr.parentDown, ?_, ?_⟩
      · rw [hr.childSame.1]
        apply ht.congr
        intro x hx
        exact hkeep x ⟨fun heq => hpivot.up.1 (heq ▸ hx), fun heq => hpivot.down.1 (heq ▸ hx),
          fun hxu => (hpivot.mid x hxu).1 hx, hpivot.path x (Or.inr (Or.inr (Or.inl hx)))⟩
      · rw [hr.childDown]
        have hout (x : ι) (hx : x ∈ inorder u) : x ≠ a ∧ x ≠ b ∧ x ∉ pathNodes fs :=
          ⟨fun heq => hpivot.up.2.1 (heq ▸ hx), fun heq => hpivot.down.2.1 (heq ▸ hx),
            hpivot.path x (Or.inr (Or.inr (Or.inr (Or.inl hx))))⟩
        apply hu.reparent hpivot.nodupMid
        · exact fun x hx => hr.parentMid x hx
        · exact fun x hx hne => hr.parentElse x (hout x hx).1 (hout x hx).2.1 hne
        · exact fun x hx e => hr.childElse x e (hout x hx).1 (hout x hx).2.1
            fun hup => (hout x hx).2.2 (habove x hup.1)
    · rw [hr.childSame.2]
      apply hv.congr
      intro x hx
      exact hkeep x ⟨fun heq => hpivot.up.2.2 (heq ▸ hx), fun heq => hpivot.down.2.2 (heq ▸ hx),
        fun hxu => (hpivot.mid x hxu).2 hx,
        hpivot.path x (Or.inr (Or.inr (Or.inr (Or.inr hx))))⟩
  · rw [inorder_fill_congr (inorder_rotated d a b t u v)]
    exact h.nodup

end Rotations

section Fences

/-- Links that have come from `L₀` by writes within `S`, from which no link leads out. -/
structure Fenced (S : Set ι) (L₀ L : Links ι) : Prop where
  parent : ∀ x ∈ S, ∀ y ∈ L.parent x, y ∈ S
  child : ∀ x ∈ S, ∀ d, ∀ y ∈ L.child d x, y ∈ S
  root : (∀ r ∈ L₀.root, r ∈ S) → ∀ r ∈ L.root, r ∈ S
  outside : ∀ x ∉ S, L.parent x = L₀.parent x

variable {S : Set ι} {L₀ : Links ι}

theorem Fenced.setRoot (h : Fenced S L₀ L) (hc : ∀ y ∈ c, y ∈ S) : Fenced S L₀ (L.setRoot c) :=
  ⟨h.parent, h.child, fun _ => hc, h.outside⟩

theorem Fenced.setParent [DecidableEq ι] (h : Fenced S L₀ L) (ha : a ∈ S) (hc : ∀ y ∈ c, y ∈ S) :
    Fenced S L₀ (L.setParent a c) := by
  refine ⟨?_, h.child, h.root, ?_⟩
  · intro x hx y hy
    rw [setParent_parent] at hy
    split_ifs at hy
    · exact hc y hy
    · exact h.parent x hx y hy
  · intro x hx
    rw [setParent_parent, if_neg (by rintro rfl; exact hx ha)]
    exact h.outside x hx

theorem Fenced.setChild [DecidableEq ι] (h : Fenced S L₀ L) (hc : ∀ y ∈ c, y ∈ S) :
    Fenced S L₀ (L.setChild d a c) := by
  refine ⟨h.parent, ?_, h.root, h.outside⟩
  intro x hx e y hy
  rw [setChild_child] at hy
  split_ifs at hy
  · exact hc y hy
  · exact h.child x hx e y hy

theorem Holds.closed (h : L.Holds p c t) (hp : ∀ y ∈ p, y ∈ S) (ht : ∀ x ∈ inorder t, x ∈ S) :
    ∀ x ∈ inorder t, (∀ y ∈ L.parent x, y ∈ S) ∧ ∀ d, ∀ y ∈ L.child d x, y ∈ S := by
  induction t generalizing p c with
  | nil => simp
  | node a l r ihl ihr =>
    obtain ⟨rfl, hpa, hl, hr⟩ := h
    have ha : a ∈ S := ht a (by simp)
    have hsub {q : Option ι} {u : BinaryTree ι} (hu : L.Holds (some a) q u)
        (hin : ∀ x ∈ inorder u, x ∈ S) : ∀ y ∈ q, y ∈ S := by
      intro y hy
      apply hin
      exact rootOf_mem (hu.eq_rootOf.symm.trans hy)
    have hinl : ∀ x ∈ inorder l, x ∈ S := fun x hx => ht x (by simp [hx])
    have hinr : ∀ x ∈ inorder r, x ∈ S := fun x hx => ht x (by simp [hx])
    have hself : ∀ y ∈ some a, y ∈ S := by
      rintro y ⟨⟩
      exact ha
    intro x hx
    rw [inorder_node, List.mem_append, List.mem_cons] at hx
    rcases hx with hx | rfl | hx
    · exact ihl hl hself hinl x hx
    · refine ⟨by rwa [hpa], ?_⟩
      intro d
      cases d with
      | left => exact hsub hl hinl
      | right => exact hsub hr hinr
    · exact ihr hr hself hinr x hx

theorem Represents.fenced (h : L.Represents t) : Fenced {x | x ∈ inorder t} L L := by
  have hclosed := h.holds.closed (S := {x | x ∈ inorder t}) nofun fun _ hx => hx
  exact ⟨fun x hx => (hclosed x hx).1, fun x hx => (hclosed x hx).2, id, fun _ _ => rfl⟩

/-- A tree that is reached from within the fence is within the fence. -/
theorem Fenced.mem_of_holds (h : Fenced S L₀ L) (ht : L.Holds p c t) (hc : ∀ y ∈ c, y ∈ S) :
    ∀ x ∈ inorder t, x ∈ S := by
  induction t generalizing p c with
  | nil => simp
  | node a l r ihl ihr =>
    obtain ⟨rfl, -, hl, hr⟩ := ht
    have ha : a ∈ S := hc a rfl
    intro x hx
    rw [inorder_node, List.mem_append, List.mem_cons] at hx
    rcases hx with hx | rfl | hx
    · exact ihl hl (h.child a ha .left) x hx
    · exact ha
    · exact ihr hr (h.child a ha .right) x hx

/-- In a tree the parent of a node is a node of the tree, too, and no node is its own child. -/
theorem Represents.parent_mem (h : L.Represents t) (hx : x ∈ inorder t) (hp : L.parent x = some a) :
    a ∈ inorder t := h.fenced.parent x hx a hp

theorem Represents.child_ne (h : L.Represents t) (hx : x ∈ inorder t) : L.child d x ≠ some x := by
  obtain ⟨fs, l, r, rfl⟩ := exists_fill hx
  obtain ⟨hl, hr⟩ := h.child_node
  obtain ⟨-, -, hxl, hxr, -⟩ := (nodup_join (d := .left)).mp (nodup_fill.mp h.nodup).1
  intro hself
  cases d with
  | left => exact hxl (rootOf_mem (hl.symm.trans hself))
  | right => exact hxr (rootOf_mem (hr.symm.trans hself))

theorem Represents.child_of_parent (h : L.Represents t) (hx : x ∈ inorder t)
    (hp : L.parent x = some a) : ∃ d, L.child d a = some x := by
  obtain ⟨fs, l, r, rfl⟩ := exists_fill hx
  rw [h.parent_eq rfl] at hp
  cases fs with
  | nil => cases hp
  | cons f fs =>
    cases hp
    exact ⟨f.side, h.child_eq.1⟩

theorem Represents.parent_of_child (h : L.Represents t) (hx : x ∈ inorder t)
    (hc : L.child d x = some a) : L.parent a = some x := by
  obtain ⟨fs, l, r, rfl⟩ := exists_fill hx
  have hl : L.Represents (fill (⟨.left, x, r⟩ :: fs) l) := h
  have hr : L.Represents (fill (⟨.right, x, l⟩ :: fs) r) := h
  cases d with
  | left => exact hl.parent_eq (hl.child_eq.1.symm.trans hc)
  | right => exact hr.parent_eq (hr.child_eq.1.symm.trans hc)

end Fences

section Reach

/-- The nodes that the child links lead to from the root. -/
def reachable (L : Links ι) : Set ι :=
  {x | ∃ r, L.root = some r ∧ Relation.ReflTransGen (fun a b => ∃ d, L.child d a = some b) r x}

variable {L : Links ι} {d : Side} {a b x : ι} {p c : Option ι} {t : BinaryTree ι}

theorem Holds.mem_of_child (h : L.Holds p c t) (ha : a ∈ inorder t) (hb : L.child d a = some b) :
    b ∈ inorder t := by
  induction t generalizing p c with
  | nil => cases ha
  | node e l r ihl ihr =>
    obtain ⟨-, -, hl, hr⟩ := h
    rw [inorder_node, List.mem_append, List.mem_cons] at ha ⊢
    rcases ha with ha | ha | ha
    · exact Or.inl (ihl hl ha)
    · rw [ha] at hb
      cases d with
      | left =>
        rw [hb] at hl
        exact Or.inl hl.mem
      | right =>
        rw [hb] at hr
        exact Or.inr (Or.inr hr.mem)
    · exact Or.inr (Or.inr (ihr hr ha))

theorem Holds.path_to (h : L.Holds p (some a) t) (hx : x ∈ inorder t) :
    Relation.ReflTransGen (fun a b => ∃ d, L.child d a = some b) a x := by
  induction t generalizing p a with
  | nil => cases hx
  | node e l r ihl ihr =>
    obtain ⟨he, -, hl, hr⟩ := h
    cases he
    rw [inorder_node, List.mem_append, List.mem_cons] at hx
    rcases hx with hx | hx | hx
    · cases hc : L.child .left e with
      | none =>
        rw [hc] at hl
        have hnil := hl.eq_rootOf
        cases l with
        | nil => cases hx
        | node _ _ _ => cases hnil
      | some b =>
        rw [hc] at hl
        exact .head ⟨.left, hc⟩ (ihl hl hx)
    · rw [hx]
    · cases hc : L.child .right e with
      | none =>
        rw [hc] at hr
        have hnil := hr.eq_rootOf
        cases r with
        | nil => cases hx
        | node _ _ _ => cases hnil
      | some b =>
        rw [hc] at hr
        exact .head ⟨.right, hc⟩ (ihr hr hx)

theorem Represents.reachable_eq (h : L.Represents t) : L.reachable = {x | x ∈ inorder t} := by
  ext x
  constructor
  · intro hx
    obtain ⟨r, hr, hpath⟩ := hx
    have hroot : r ∈ inorder t := rootOf_mem (h.root_eq.symm.trans hr)
    induction hpath with
    | refl => exact hroot
    | tail _ hstep ih =>
      obtain ⟨d, hd⟩ := hstep
      exact h.holds.mem_of_child ih hd
  · intro hx
    have hholds := h.holds
    cases hr : L.root with
    | none =>
      rw [h.root_eq] at hr
      cases t with
      | nil => cases hx
      | node _ _ _ => cases hr
    | some r =>
      rw [hr] at hholds
      exact ⟨r, hr, hholds.path_to hx⟩

theorem Represents.encard_reachable (h : L.Represents t) : L.reachable.encard = t.numNodes := by
  classical
  have hset : {x | x ∈ inorder t} = ((inorder t).toFinset : Set ι) := by
    ext x
    simp
  rw [h.reachable_eq, hset, Set.encard_coe_eq_coe_finsetCard, List.toFinset_card_of_nodup h.nodup,
    length_inorder]

end Reach

end Links

end LinkedTree
