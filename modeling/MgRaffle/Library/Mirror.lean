import MgRaffle.Library.RedBlack

namespace LinkedTree

variable {ι : Type*}

/-- The tree with left and right swapped everywhere. -/
def mirror : BinaryTree ι → BinaryTree ι
  | .nil => .nil
  | .node a l r => .node a (mirror r) (mirror l)

namespace Frame

def mirror (f : Frame ι) : Frame ι := ⟨f.side.other, f.id, LinkedTree.mirror f.sibling⟩

end Frame

namespace Links

def mirror (L : Links ι) : Links ι := { L with child := fun d => L.child d.other }

end Links

section Trees

variable {d : Side} {a x : ι} {t u : BinaryTree ι} {f : Frame ι} {fs : List (Frame ι)}

@[simp] theorem mirror_mirror (t : BinaryTree ι) : mirror (mirror t) = t := by
  induction t with
  | nil => rfl
  | node a l r ihl ihr => rw [mirror, mirror, ihl, ihr]

theorem mirror_join (d : Side) (a : ι) (t u : BinaryTree ι) :
    mirror (join d a t u) = join d.other a (mirror t) (mirror u) := by
  cases d <;> rfl

theorem mirror_sub (d : Side) (t : BinaryTree ι) : mirror (sub d t) = sub d.other (mirror t) := by
  cases t with
  | nil => rfl
  | node a l r => cases d <;> rfl

@[simp] theorem rootOf_mirror (t : BinaryTree ι) : rootOf (mirror t) = rootOf t := by
  cases t <;> rfl

theorem inorder_mirror (t : BinaryTree ι) : inorder (mirror t) = (inorder t).reverse := by
  induction t with
  | nil => rfl
  | node a l r ihl ihr => simp [mirror, ihl, ihr]

theorem mem_inorder_mirror : x ∈ inorder (mirror t) ↔ x ∈ inorder t := by
  rw [inorder_mirror, List.mem_reverse]

@[simp] theorem Frame.mirror_mirror (f : Frame ι) : f.mirror.mirror = f := by
  simp [Frame.mirror]

theorem mirror_attach (f : Frame ι) (t : BinaryTree ι) :
    LinkedTree.mirror (f.attach t) = f.mirror.attach (mirror t) := mirror_join ..

theorem mirror_fill (fs : List (Frame ι)) (t : BinaryTree ι) :
    mirror (fill fs t) = fill (fs.map Frame.mirror) (mirror t) := by
  induction fs generalizing t with
  | nil => rfl
  | cons f fs ih => rw [fill_cons, ih, mirror_attach, List.map_cons, fill_cons]

end Trees

section Linked

variable {L : Links ι} {p c : Option ι} {t : BinaryTree ι}

theorem Links.Holds.mirror (h : L.Holds p c t) : L.mirror.Holds p c (LinkedTree.mirror t) := by
  induction t generalizing p c with
  | nil => exact h
  | node a l r ihl ihr =>
    obtain ⟨hc, hp, hl, hr⟩ := h
    exact ⟨hc, hp, ihr hr, ihl hl⟩

theorem Links.Represents.mirror (h : L.Represents t) : L.mirror.Represents (LinkedTree.mirror t) where
  holds := h.holds.mirror
  nodup := by
    rw [inorder_mirror, List.nodup_reverse]
    exact h.nodup

end Linked

section Colours

variable {red : ι → Bool} {t : BinaryTree ι} {n : ℕ}

@[simp] theorem rootRed_mirror : RootRed red (mirror t) ↔ RootRed red t := by
  unfold RootRed
  rw [rootOf_mirror]

theorem Proper.mirror (h : Proper red t) : Proper red (mirror t) := by
  induction t with
  | nil => trivial
  | node a l r ihl ihr =>
    refine ⟨?_, ihr h.2.2, ihl h.2.1⟩
    rw [rootRed_mirror, rootRed_mirror]
    exact fun ha => (h.1 ha).symm

theorem Balanced.mirror (h : Balanced red t n) : Balanced red (mirror t) n := by
  induction t generalizing n with
  | nil => exact h
  | node a l r ihl ihr =>
    obtain ⟨m, hl, hr, hn⟩ := h
    exact ⟨m, ihr hr, ihl hl, hn⟩

theorem RedBlack.mirror (h : RedBlack red t) : RedBlack red (mirror t) where
  rootBlack := by
    rw [rootRed_mirror]
    exact h.rootBlack
  proper := h.proper.mirror
  balanced := by
    obtain ⟨n, hn⟩ := h.balanced
    exact ⟨n, hn.mirror⟩

end Colours

end LinkedTree
