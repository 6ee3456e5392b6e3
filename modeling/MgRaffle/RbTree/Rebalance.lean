import MgRaffle.RbTree.Node

namespace MgRaffle.RbTree

open LinkedTree

variable {ι : Type*} [DecidableEq ι]

/-- The rotations of a turn. Only `insert` breaks out of its loop after a double one;
`insert_rb_node` goes on. -/
def rebalanceRotate (breaks : Bool) (node p pp : ι) (T : Nodes ι) :
    Option ((ι × Nodes ι) ⊕ Nodes ι) := do
  if T.child .left pp = some p then
    if T.child .left p = some node then
      let T ← ((T.setType p .black).setType pp .red).relink (rightRotate pp)
      return .inl (node, T)
    else
      let T ← T.relink (leftRotate p)
      let T ← ((T.setType node .black).setType pp .red).relink (rightRotate pp)
      return if breaks then .inr T else .inl (node, T)
  else
    if T.child .right p = some node then
      let T ← ((T.setType p .black).setType pp .red).relink (leftRotate pp)
      return .inl (node, T)
    else
      let T ← T.relink (rightRotate p)
      let T ← ((T.setType node .black).setType pp .red).relink (leftRotate pp)
      return if breaks then .inr T else .inl (node, T)

/-- A turn of the loop that ends `insert` and `insert_rb_node`, with the node it works on. -/
def rebalanceTurn (breaks : Bool) : ι × Nodes ι → Option ((ι × Nodes ι) ⊕ Nodes ι)
  | (node, T) =>
    match T.parent node with
    | none => some (.inr T)
    | some p =>
      if T.type p ≠ .red then some (.inr T)
      else do
        let pp ← T.parent p
        let u := if T.child .right p = some node then T.child .left pp else T.child .right pp
        match u.filter T.red with
        | some u => return .inl (pp, ((T.setType pp .red).setType u .black).setType p .black)
        | none => rebalanceRotate breaks node p pp T

/-- What the loop takes for the uncle: where node and parent are on different sides, this is the
parent itself. -/
def uncle (f g : Frame ι) : Option ι :=
  if f.side = g.side then rootOf g.sibling else some f.id

variable {breaks : Bool} {T : Nodes ι} {node u : ι} {t : BinaryTree ι} {f g : Frame ι}
  {fs : List (Frame ι)}

theorem turn_stop (h : T.Represents (fill fs t)) (hx : rootOf t = some node)
    (hblack : ∀ a ∈ above fs, T.red a = false) :
    rebalanceTurn breaks (node, T) = some (.inr T) := by
  rw [rebalanceTurn, h.parent_eq hx]
  cases fs with
  | nil => rfl
  | cons f fs =>
    have hf : T.type f.id ≠ .red := by simpa [Nodes.red] using hblack f.id rfl
    exact if_pos hf

/-- The node that the loop looks at on the far side of the grandparent. -/
theorem uncle_eq (h : T.Represents (fill (f :: g :: fs) t)) (hx : rootOf t = some node) :
    (if T.child .right f.id = some node then T.child .left g.id else T.child .right g.id) =
      uncle f g := by
  have hg : T.toLinks.Represents (fill (g :: fs) (f.attach t)) := h
  obtain ⟨hside, hother⟩ := hg.child_eq
  rw [Frame.attach, rootOf_join] at hside
  rw [if_congr (h.child_eq_iff hx) rfl rfl]
  unfold uncle
  cases hf : f.side <;> cases hgs : g.side <;> simp_all

/-- Below a red parent the uncle decides what a turn does. -/
theorem turn_red (h : T.Represents (fill (f :: g :: fs) t)) (hx : rootOf t = some node)
    (hf : T.red f.id) : rebalanceTurn breaks (node, T) =
      match (uncle f g).filter T.red with
      | some u => some (.inl (g.id, ((T.setType g.id .red).setType u .black).setType f.id .black))
      | none => rebalanceRotate breaks node f.id g.id T := by
  have hg : T.toLinks.Represents (fill (g :: fs) (f.attach t)) := h
  have hp : T.parent node = some f.id := h.parent_eq hx
  have hpp : T.parent f.id = some g.id := hg.parent_eq rootOf_join
  have htype : ¬ T.type f.id ≠ .red := by simpa [Nodes.red] using hf
  simp only [rebalanceTurn, hp, if_neg htype, hpp, Option.bind_eq_bind, Option.bind_some,
    uncle_eq h hx]
  rfl

theorem turn_recolour (h : T.Represents (fill (f :: g :: fs) t)) (hx : rootOf t = some node)
    (hf : T.red f.id) (hu : uncle f g = some u) (hred : T.red u) :
    rebalanceTurn breaks (node, T) =
      some (.inl (g.id, ((T.setType g.id .red).setType u .black).setType f.id .black)) := by
  rw [turn_red h hx hf, hu, Option.filter_some, if_pos hred]

/-- Where node and parent are on the same side, one rotation is enough. -/
theorem rebalanceRotate_eq (h : T.Represents (fill (f :: g :: fs) t)) (hx : rootOf t = some node)
    (hside : f.side = g.side) : rebalanceRotate breaks node f.id g.id T =
      (((T.setType f.id .black).setType g.id .red).relink (rotate f.side.other g.id)).map
        fun T => .inl (node, T) := by
  have hg : T.toLinks.Represents (fill (g :: fs) (f.attach t)) := h
  unfold rebalanceRotate
  rw [if_congr (hg.child_eq_iff rootOf_join) rfl rfl, if_congr (h.child_eq_iff hx) rfl rfl,
    if_congr (h.child_eq_iff hx) rfl rfl, ← hside]
  cases f.side <;> exact Option.map_eq_bind.symm

theorem turn_rotate (breaks : Bool) (h : T.Represents (fill (f :: g :: fs) t)) (hx : rootOf t = some node)
    (hf : T.red f.id) (hside : f.side = g.side) (hu : ¬ RootRed T.red g.sibling) :
    ∃ L', rebalanceTurn breaks (node, T) =
        some (.inl (node, ((T.setType f.id .black).setType g.id .red).withLinks L')) ∧
      L'.Represents
        (fill (⟨f.side, f.id, join f.side.other g.id g.sibling f.sibling⟩ :: fs) t) := by
  have hnone : (uncle f g).filter T.red = none := by
    rw [uncle, if_pos hside, Option.filter_eq_none_iff]
    intro a ha hred
    exact hu ⟨a, ha, hred⟩
  have hjoin : T.toLinks.Represents (fill fs (join f.side.other g.id g.sibling
      (join f.side.other f.id f.sibling t))) := by
    simpa only [fill_cons, Frame.attach, ← hside, join_other] using h
  obtain ⟨L', hL', hrot⟩ := rotate_rotated hjoin.rotatable
  refine ⟨L', ?_, ?_⟩
  · rw [turn_red h hx hf, hnone, rebalanceRotate_eq h hx hside]
    simp only [Nodes.relink, Nodes.setType_links, hL', Option.map_some]
  · have hnew := hrot.represents hjoin
    simpa only [fill_cons, Frame.attach, join_other] using hnew

/-- The loop works on the node at the end of a path of `m` steps, in the tree of the nodes `xs`; the
root is black until it gets there. -/
structure Climbing (xs : List ι) (m : ℕ) (s : ι × Nodes ι) : Prop where
  zipper : ∃ fs t, s.2.Represents (fill fs t) ∧ rootOf t = some s.1 ∧ inorder (fill fs t) = xs ∧
    fs.length = m
  rootBlack : m ≠ 0 → ∀ r ∈ s.2.root, s.2.red r = false

omit [DecidableEq ι] in
/-- A red parent is not the root, which is black. -/
theorem exists_grandparent (h : T.Represents (fill fs t)) (hred : ¬ ∀ a ∈ above fs, T.red a = false)
    (hroot : fs.length ≠ 0 → ∀ r ∈ T.root, T.red r = false) :
    ∃ f g gs, fs = f :: g :: gs ∧ T.red f.id = true ∧ ∀ r ∈ T.root, T.red r = false := by
  cases fs with
  | nil => exact absurd nofun hred
  | cons f fs =>
    have hf : T.red f.id := by simpa using hred
    replace hroot := hroot (by simp)
    cases fs with
    | nil =>
      have hr : T.root = some f.id := h.root_eq.trans rootOf_join
      rw [hroot f.id hr] at hf
      cases hf
    | cons g gs => exact ⟨f, g, gs, rfl, hf, hroot⟩

omit [DecidableEq ι] in
theorem exists_uncle (hf : T.red f.id) (h : ¬ (f.side = g.side ∧ ¬ RootRed T.red g.sibling)) :
    ∃ u, uncle f g = some u ∧ T.red u := by
  unfold uncle
  split_ifs with hside
  · obtain ⟨u, hu, hred⟩ := not_not.mp (not_and.mp h hside)
    exact ⟨u, hu, hred⟩
  · exact ⟨f.id, rfl, hf⟩

omit [DecidableEq ι] in
/-- The root keeps its colour as long as the grandparent, which turns red, is below it. -/
theorem red_root (T' : Nodes ι) {u : BinaryTree ι} {b : ι} (hold : T.Represents (fill fs t))
    (h : T'.Represents (fill fs u)) (hfs : fs ≠ []) (hroot : ∀ r ∈ T.root, T.red r = false)
    (hb : b ∈ inorder t) (hred : ∀ x, x ≠ b → T.red x = false → T'.red x = false) :
    ∀ r ∈ T'.root, T'.red r = false := by
  obtain ⟨f, gs, rfl⟩ := List.exists_cons_of_ne_nil hfs
  obtain ⟨r, hr, htop⟩ := rootOf_fill f gs
  rw [hold.root_eq, htop] at hroot
  rw [h.root_eq, htop]
  rintro x ⟨⟩
  apply hred r _ (hroot r rfl)
  rintro rfl
  exact (nodup_fill.mp hold.nodup).2.2 hb hr

omit [DecidableEq ι] in
theorem grandparent_ne (h : T.Represents (fill (f :: g :: fs) t)) : f.id ≠ g.id := by
  intro heq
  have hg : T.toLinks.Represents (fill (g :: fs) (f.attach t)) := h
  apply (nodup_fill.mp hg.nodup).2.2 mem_join_self
  exact mem_pathNodes_cons.mpr (Or.inl heq)

omit [DecidableEq ι] in
theorem inorder_raised (hside : f.side = g.side) :
    inorder (fill (⟨f.side, f.id, join f.side.other g.id g.sibling f.sibling⟩ :: fs) t) =
      inorder (fill (f :: g :: fs) t) := by
  rw [fill_cons, fill_cons, fill_cons]
  apply inorder_fill_congr
  simp only [Frame.attach, ← hside]
  cases f.side <;> simp [join]

theorem rootBlack_rotate {L' : Links ι} (hold : T.Represents (fill (f :: g :: fs) t))
    (h : L'.Represents (fill (⟨f.side, f.id, join f.side.other g.id g.sibling f.sibling⟩ :: fs) t))
    (hroot : ∀ r ∈ T.root, T.red r = false) :
    ∀ r ∈ L'.root, ((T.setType f.id .black).setType g.id .red).red r = false := by
  by_cases hfs : fs = []
  · subst hfs
    intro r hr
    obtain rfl : f.id = r := Option.some.inj ((h.root_eq.trans rootOf_join).symm.trans hr)
    simp [grandparent_ne hold]
  · refine red_root (((T.setType f.id .black).setType g.id .red).withLinks L') (b := g.id)
      (t := g.attach (f.attach t)) hold h hfs hroot ?_ ?_
    · exact mem_join_self
    · intro x hxg hxb
      simp [hxg, hxb]

theorem rootBlack_recolour (h : T.Represents (fill (f :: g :: fs) t)) (hfs : fs.length ≠ 0)
    (hroot : ∀ r ∈ T.root, T.red r = false) : ∀ r ∈ T.root,
      (((T.setType g.id .red).setType u .black).setType f.id .black).red r = false := by
  refine red_root (((T.setType g.id .red).setType u .black).setType f.id .black) (b := g.id)
    (t := g.attach (f.attach t)) (u := g.attach (f.attach t)) h h ?_ hroot ?_ ?_
  · exact List.length_pos_iff.mp (Nat.pos_of_ne_zero hfs)
  · exact mem_join_self
  · intro x hxg hxb
    simp [hxg, hxb]

theorem climbing_turn {xs : List ι} {m : ℕ} {s : ι × Nodes ι} (h : Climbing xs m s) :
    (∃ s', rebalanceTurn breaks s = some (.inl s') ∧ ∃ k < m, Climbing xs k s') ∨
      ∃ T', rebalanceTurn breaks s = some (.inr T') ∧ ∃ t, T'.Represents t ∧ inorder t = xs := by
  obtain ⟨node, T⟩ := s
  obtain ⟨⟨fs, t, hrep, hx, rfl, rfl⟩, hroot⟩ := h
  by_cases hblack : ∀ a ∈ above fs, T.red a = false
  · exact Or.inr ⟨T, turn_stop hrep hx hblack, _, hrep, rfl⟩
  · left
    obtain ⟨f, g, fs, rfl, hf, hroot⟩ := exists_grandparent hrep hblack hroot
    by_cases hrot : f.side = g.side ∧ ¬ RootRed T.red g.sibling
    · obtain ⟨L', hturn, hnew⟩ := turn_rotate breaks hrep hx hf hrot.1 hrot.2
      refine ⟨_, hturn, fs.length + 1, by simp, ?_⟩
      exact ⟨⟨_, t, hnew, hx, inorder_raised hrot.1, rfl⟩, fun _ => rootBlack_rotate hrep hnew hroot⟩
    · obtain ⟨u, hu, hred⟩ := exists_uncle hf hrot
      refine ⟨_, turn_recolour hrep hx hf hu hred, fs.length, by simp, ?_⟩
      exact ⟨⟨fs, g.attach (f.attach t), hrep, rootOf_join, rfl, rfl⟩,
        fun hfs => rootBlack_recolour hrep hfs hroot⟩

/-- The loop ends, whichever way it leaves a double rotation, and rearranges the tree. -/
theorem rebalance_total {xs : List ι} {m fuel : ℕ} {s : ι × Nodes ι} (h : Climbing xs m s)
    (hfuel : m < fuel) : ∃ T', Looping.loop (rebalanceTurn breaks) fuel s = some T' ∧
      ∃ t, T'.Represents t ∧ inorder t = xs :=
  Looping.loop_total (fun _ _ hs => climbing_turn hs) h hfuel

end MgRaffle.RbTree
