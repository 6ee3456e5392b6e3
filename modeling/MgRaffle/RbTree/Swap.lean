import MgRaffle.RbTree.Fence
import MgRaffle.RbTree.Leaf

namespace MgRaffle.RbTree

open LinkedTree LinkedTree.Links

variable {ι : Type*} [DecidableEq ι] {N N₁ N₂ : Nodes ι} {L : Links ι} {a c x y : ι} {d e : Side}
  {q : Option ι} {fs : List (Frame ι)} {fuel : ℕ}

section Exchange

@[simp] theorem hookRight_parent : (hookRight q a c L).parent x = L.parent x := by
  cases q with
  | none => rfl
  | some p =>
    rw [hookRight]
    split_ifs <;> rfl

theorem hookRight_child (h : q ≠ some x) : (hookRight q a c L).child e x = L.child e x := by
  cases q with
  | none => rfl
  | some p =>
    have hp : x ≠ p := fun heq => h (congrArg some heq.symm)
    rw [hookRight]
    split_ifs <;> simp [hp]

theorem exchange_parent : (exchange a c L).parent x =
    if x = c then L.parent a else if x = a then L.parent c else L.parent x := by
  simp [exchange]

theorem exchange_child (hac : a ≠ c) : (exchange a c L).child e x =
    if x = a then L.child e c else if x = c then L.child e a else L.child e x := by
  cases e <;> simp [exchange, hac, hac.symm] <;> grind

theorem hookRight_root : (hookRight q a c L).root = if q = none then some c else L.root := by
  cases q with
  | none => rfl
  | some p =>
    rw [hookRight]
    split_ifs <;> simp_all

/-- The links after an exchange of `a` with a node `c` below it. -/
theorem changeRbNode_eq (hac : a ≠ c) (hq : N.parent c = some y) : ∃ N₁,
    changeRbNode a c true N = some N₁ ∧
      N₁.toLinks = hookRight (some y) c a (hookRight (N.parent a) a c (exchange a c N.toLinks)) := by
  let L := hookRight (some y) c a (hookRight (N.parent a) a c (exchange a c N.toLinks))
  refine ⟨((N.withLinks L).setType a (N.type c)).setType c (N.type a), ?_, rfl⟩
  simp only [changeRbNode, if_neg hac, hq, Option.bind_eq_bind, Option.bind_some]
  rfl

end Exchange

section Adjacent

variable (hac : a ≠ c) (hchild : N.child e a = some c) (hparent : N.parent c = some a)
  (hleft : N.child .left c = none) (ha : N.parent a ≠ some a) (hc : N.parent a ≠ some c)
  (hroot : N.parent a = none ∨ N.root ≠ some a)

include hac hchild hparent hleft ha hc hroot

/-- A node that changes places with its own child becomes a child of itself, as does the child. -/
theorem changeRbNode_adjacent : ∃ N₁, changeRbNode a c true N = some N₁ ∧
    N₁.root ≠ some a ∧ N₁.parent a = some a ∧ N₁.child .left a = none ∧
    N₁.child .right a = some a ∧ N₁.child e c = some c := by
  obtain ⟨N₁, hN₁, hlinks⟩ := changeRbNode_eq hac hparent
  -- before the pointer from above `c`, which is `a` by now, is moved
  let M := hookRight (N.parent a) a c (exchange a c N.toLinks)
  have hMa (d : Side) : M.child d a = N.child d c := by
    rw [hookRight_child ha, exchange_child hac, if_pos rfl]
  have hMc : M.child e c = some c := by
    rw [hookRight_child hc, exchange_child hac, if_neg hac.symm, if_pos rfl, hchild]
  have hlinks' : N₁.toLinks = M.setChild .right a (some a) := by
    rw [hlinks, ← show M = _ from rfl, hookRight, if_neg]
    rw [hMa, hleft]
    simp
  refine ⟨N₁, hN₁, ?_, ?_, ?_, ?_, ?_⟩
  · rw [hlinks', setChild_root, hookRight_root]
    split_ifs with hnone
    · exact fun heq => hac (Option.some.inj heq).symm
    · exact hroot.resolve_left hnone
  · rw [hlinks', setChild_parent, hookRight_parent, exchange_parent, if_neg hac, if_pos rfl, hparent]
  · rw [hlinks', setChild_child, if_neg (fun heq => absurd heq.1 (by decide)), hMa, hleft]
  · simp [hlinks']
  · rw [hlinks', setChild_child, if_neg (fun heq => hac heq.2.symm), hMc]

end Adjacent

theorem deleteLeafNode_selfChild (hroot : N.root ≠ some a) (hparent : N.parent a = some a)
    (hleft : N.child .left a = none) (hac : a ≠ c) (hc : N.child e c = some c) :
    ∃ N₂, deleteLeafNode a N = some N₂ ∧ N₂.child e c = some c := by
  refine ⟨N.withLinks (N.setChild .right a none), ?_, ?_⟩
  · simp [deleteLeafNode, hroot, hparent, hleft]
  · simp [hac.symm, hc]

section Shapes

variable {l r : BinaryTree ι} {gs : List (Frame ι)}

/-- What the exchange of a node with its child finds. -/
theorem changeRbNode_child (h : N.Represents (fill fs (join e a (.node c .nil l) r))) :
    ∃ N₁, changeRbNode a c true N = some N₁ ∧
      N₁.root ≠ some a ∧ N₁.parent a = some a ∧ N₁.child .left a = none ∧
      N₁.child .right a = some a ∧ a ≠ c ∧ N₁.child e c = some c := by
  have hc : N.Represents (fill (⟨e, a, r⟩ :: fs) (.node c .nil l)) := h
  have hac : a ≠ c := fun heq => hc.above_ne (by simp) (congrArg some heq)
  have hparent : N.parent a = above fs := h.parent_eq rootOf_join
  have ha : a ∈ inorder (join e a (.node c .nil l) r) := mem_join_self
  have hcm : c ∈ inorder (join e a (.node c .nil l) r) :=
    mem_inorder_join.mpr (Or.inr (Or.inl (by simp)))
  obtain ⟨N₁, hN₁, hroot, hpar, hleft, hright, hself⟩ := changeRbNode_adjacent hac
    h.child_join.1 (hc.parent_eq rfl) hc.child_node.1 (hparent ▸ h.above_ne ha)
    (hparent ▸ h.above_ne hcm) (by
      cases fs with
      | nil => exact Or.inl hparent
      | cons f fs => exact Or.inr (h.root_ne ha))
  exact ⟨N₁, hN₁, hroot, hpar, hleft, hright, hac, hself⟩

/-- A node with one child: the child ends up below itself. -/
theorem unlinkNode_onlyChild (fuel : ℕ)
    (h : N.Represents (fill fs (join e a (.node c .nil .nil) .nil)))
    (hred : N.red a = false) : ∃ N₂, unlinkNode fuel a N = some N₂ ∧ N₂.child e c = some c := by
  obtain ⟨N₁, hN₁, hroot, hparent, hleft, -, hac, hself⟩ := changeRbNode_child h
  obtain ⟨N₂, hN₂, hself₂⟩ := deleteLeafNode_selfChild hroot hparent hleft hac hself
  obtain ⟨hchild, hother⟩ := h.child_join
  refine ⟨N₂, ?_, hself₂⟩
  cases e with
  | left =>
    have hl : N.child .left a = some c := hchild
    simp [unlinkNode, hred, hl, hN₁, hN₂]
  | right =>
    have hr : N.child .right a = some c := hchild
    have hl : N.child .left a = none := hother
    simp [unlinkNode, hred, hl, hr, hN₁, hN₂]

/-- With itself for a right child, the node is unlinked at once. -/
theorem unlinkNode_selfChild (hleft : N.child .left a = none) (hright : N.child .right a = some a) :
    unlinkNode fuel a N = deleteLeafNode a N := by
  rw [unlinkNode, hleft, hright]
  split_ifs
  · rfl
  · simp [changeRbNode]

theorem removeNode_eq (h : N.Represents (fill fs (.node a l r))) (hl : l ≠ .nil) (hr : r ≠ .nil)
    (hrun : removeNode fuel a N = some N₂) : ∃ c N₁, findRightReplaceNode fuel a N = some c ∧
      changeRbNode a c true N = some N₁ ∧ unlinkNode fuel a N₁ = some N₂ := by
  obtain ⟨hcl, hcr⟩ := h.child_node
  rw [removeNode, if_pos] at hrun
  · obtain ⟨c, hc, hrun⟩ := Option.bind_eq_some_iff.mp hrun
    obtain ⟨N₁, hN₁, hrun⟩ := Option.bind_eq_some_iff.mp hrun
    exact ⟨c, N₁, hc, hN₁, hrun⟩
  · rw [hcl, hcr]
    obtain ⟨b, u, v, rfl⟩ := exists_join .left hl
    obtain ⟨b', u', v', rfl⟩ := exists_join .left hr
    simp [rootOf_join]

omit [DecidableEq ι] in
/-- The search for a replacement goes down the left children as far as it can. -/
theorem replace_loop {t : BinaryTree ι} (h : N.Represents (fill fs t)) (ht : t ≠ .nil) :
    ∃ gs c r b n, t = fill gs (.node c .nil r) ∧ (∀ g ∈ gs, g.side = .left) ∧ rootOf t = some b ∧
      Looping.loop (replaceTurn N) n b = some c := by
  induction t generalizing fs with
  | nil => exact absurd rfl ht
  | node a l r ihl _ =>
    have hl : N.Represents (fill (⟨.left, a, r⟩ :: fs) l) := h
    have hchild : N.child .left a = rootOf l := h.child_node.1
    cases l with
    | nil =>
      refine ⟨[], a, r, a, 1, rfl, by simp, rfl, Looping.loop_inr ?_⟩
      rw [replaceTurn, hchild]
      rfl
    | node a' l' r' =>
      obtain ⟨gs, c, r'', b, n, hfill, hleft, hb, hloop⟩ := ihl hl nofun
      refine ⟨gs ++ [⟨.left, a, r⟩], c, r'', a, n + 1, ?_, ?_, rfl, ?_⟩
      · rw [fill_append, ← hfill]
        rfl
      · intro g hg
        rcases List.mem_append.mp hg with hg | hg
        · exact hleft g hg
        · rw [List.mem_singleton.mp hg]
      · rw [Looping.loop_inl, hloop]
        rw [replaceTurn, hchild, hb]

/-- The successor of a node is its right child: it ends up below itself. -/
theorem removeNode_near (h : N.Represents (fill fs (.node a l (.node c .nil r)))) (hl : l ≠ .nil)
    (hrun : removeNode fuel a N = some N₂) : N₂.child .right c = some c := by
  obtain ⟨c', N₁, hfind, hchange, hunlink⟩ := removeNode_eq h hl nofun hrun
  have hright : N.Represents (fill (⟨.right, a, l⟩ :: fs) (.node c .nil r)) := h
  have hturn : replaceTurn N c = some (.inr c) := by
    rw [replaceTurn, hright.child_node.1]
    rfl
  have hend : Looping.loop (replaceTurn N) 1 c = some c := Looping.loop_inr hturn
  rw [findRightReplaceNode, h.child_node.2] at hfind
  obtain rfl : c' = c := Looping.loop_unique hfind hend
  obtain ⟨N₁', hchange', hroot, hparent, hleft, hself, hac, hcc⟩ :=
    changeRbNode_child (e := .right) (l := r) (r := l) h
  obtain rfl : N₁ = N₁' := Option.some.inj (hchange.symm.trans hchange')
  rw [unlinkNode_selfChild hleft hself] at hunlink
  obtain ⟨N₂', hdel, hcc₂⟩ := deleteLeafNode_selfChild hroot hparent hleft hac hcc
  obtain rfl : N₂ = N₂' := Option.some.inj (hunlink.symm.trans hdel)
  exact hcc₂

end Shapes

section Far

variable {l r : BinaryTree ι} {g : Frame ι} {gs : List (Frame ι)} {b : ι}

theorem changeRbNode_parent {t : Bool} (hrun : changeRbNode a c t N = some N₁) (hxa : x ≠ a)
    (hxc : x ≠ c) : N₁.parent x = N.parent x := by
  rw [changeRbNode] at hrun
  split_ifs at hrun
  · cases hrun
    rfl
  · obtain ⟨p, -, hrun⟩ := Option.bind_eq_some_iff.mp hrun
    cases hrun
    simp [exchange_parent, hxa, hxc]
  · obtain ⟨p, -, hrun⟩ := Option.bind_eq_some_iff.mp hrun
    cases hrun
    simp [exchange_parent, hxa, hxc]

theorem deleteLeafNode_parent (hrun : deleteLeafNode a N = some N₁) : N₁.parent x = N.parent x := by
  rw [deleteLeafNode] at hrun
  split_ifs at hrun
  · cases hrun
    rfl
  · obtain ⟨p, -, hrun⟩ := Option.bind_eq_some_iff.mp hrun
    cases hrun
    rfl

/-- A node further down takes the place of `a`, and `a` takes its place below `g`. -/
theorem changeRbNode_far
    (h : N.Represents (fill fs (.node a l (fill (g :: gs) (.node c .nil r)))))
    (hg : g.side = .left) : ∃ N₁, changeRbNode a c true N = some N₁ ∧ N.parent c = some g.id ∧
      N₁.parent a = some g.id ∧ (∀ e, N₁.child e a = N.child e c) ∧
      ∀ x ∈ inorder (fill (g :: gs) (.node c .nil r)), x ≠ c → ∀ e,
        N₁.child e x = if e = .left ∧ x = g.id then some a else N.child e x := by
  have hc : N.Represents (fill (g :: (gs ++ ⟨.right, a, l⟩ :: fs)) (.node c .nil r)) := by
    rw [← List.cons_append, fill_append]
    exact h
  have hparent : N.parent c = some g.id := hc.parent_eq rfl
  have habove : N.parent a = above fs := h.parent_eq rfl
  have hsub (x : ι) (hx : x ∈ inorder (fill (g :: gs) (.node c .nil r))) :
      x ∈ inorder (.node a l (fill (g :: gs) (.node c .nil r))) := by
    rw [inorder_node]
    exact List.mem_append_right _ (List.mem_cons_of_mem _ hx)
  have hne (x : ι) (hx : x ∈ inorder (fill (g :: gs) (.node c .nil r))) : x ≠ a := by
    rintro rfl
    exact ((nodup_join (d := .left)).mp (nodup_fill.mp h.nodup).1).2.2.2.1 hx
  have hcR : c ∈ inorder (fill (g :: gs) (.node c .nil r)) :=
    mem_inorder_fill.mpr (Or.inl (by simp))
  have hgR : g.id ∈ inorder (fill (g :: gs) (.node c .nil r)) :=
    mem_inorder_fill.mpr (Or.inr (mem_pathNodes_cons.mpr (Or.inl rfl)))
  have hgc : g.id ≠ c := fun heq => hc.above_ne (by simp) (congrArg some heq)
  have hac : a ≠ c := (hne c hcR).symm
  obtain ⟨N₁, hN₁, hlinks⟩ := changeRbNode_eq hac hparent
  -- before the pointer from `g` is moved
  let M := hookRight (N.parent a) a c (exchange a c N.toLinks)
  have hM (e : Side) (x : ι) (hx : above fs ≠ some x) : M.child e x =
      if x = a then N.child e c else if x = c then N.child e a else N.child e x := by
    rw [hookRight_child (habove ▸ hx), exchange_child hac]
  have hgside : M.child .left g.id = some c := by
    rw [hM _ _ (h.above_ne (hsub _ hgR)), if_neg (hne _ hgR), if_neg hgc, hc.child_eq_iff rfl, hg]
  have hlinks' : N₁.toLinks = M.setChild .left g.id (some a) := by
    rw [hlinks, ← show M = _ from rfl, hookRight, if_pos hgside]
  refine ⟨N₁, hN₁, hparent, ?_, ?_, ?_⟩
  · rw [hlinks', setChild_parent, hookRight_parent, exchange_parent, if_neg hac, if_pos rfl, hparent]
  · intro e
    rw [hlinks', setChild_child, if_neg (fun heq => hne _ hgR heq.2.symm),
      hM _ _ (h.above_ne (by simp)), if_pos rfl]
  · intro x hx hxc e
    rw [hlinks', setChild_child, hM _ _ (h.above_ne (hsub x hx)), if_neg (hne x hx), if_neg hxc]

/-- The nodes that the loop can reach from `a` in its new place. -/
theorem far_fenced (h : N.Represents (fill fs (.node a l (fill (g :: gs) (.node c .nil .nil)))))
    (hg : g.side = .left) (hchange : changeRbNode a c true N = some N₁) :
    Fenced {x | x = a ∨ x ∈ inorder (fill (g :: gs) (.node c .nil .nil)) ∧ x ≠ c}
      N₁.toLinks N₁.toLinks := by
  obtain ⟨N₁', hN₁', hcp, hpar, hcha, hch⟩ := changeRbNode_far h hg
  obtain rfl : N₁ = N₁' := Option.some.inj (hchange.symm.trans hN₁')
  have hright : N.Represents (fill (⟨.right, a, l⟩ :: fs) (fill (g :: gs) (.node c .nil .nil))) := h
  have hc : N.Represents (fill (g :: (gs ++ ⟨.right, a, l⟩ :: fs)) (.node c .nil .nil)) := by
    rw [← List.cons_append, fill_append]
    exact h
  obtain ⟨q, -, hR⟩ := holds_fill.mp hright.holds
  have hgR : g.id ∈ inorder (fill (g :: gs) (.node c .nil .nil)) :=
    mem_inorder_fill.mpr (Or.inr (mem_pathNodes_cons.mpr (Or.inl rfl)))
  have hgc : g.id ≠ c := fun heq => hc.above_ne (by simp) (congrArg some heq)
  have hne (x : ι) (hx : x ∈ inorder (fill (g :: gs) (.node c .nil .nil))) : x ≠ a := by
    rintro rfl
    exact hright.above_ne hx rfl
  have hwhole (x : ι) (hx : x ∈ inorder (fill (g :: gs) (.node c .nil .nil))) :
      x ∈ inorder (fill (g :: (gs ++ ⟨.right, a, l⟩ :: fs)) (.node c .nil .nil)) := by
    rw [← List.cons_append, fill_append]
    exact mem_inorder_fill.mpr (Or.inl hx)
  have hclosed := hR.closed (S := {x | x = a ∨ x ∈ inorder (fill (g :: gs) (.node c .nil .nil))})
    (by rintro y ⟨⟩; exact Or.inl rfl) (fun _ hx => Or.inr hx)
  have hleaf (e : Side) : N.child e c = none := by
    cases e with
    | left => exact hc.child_node.1
    | right => exact hc.child_node.2
  refine ⟨?_, ?_, id, fun _ _ => rfl⟩
  · rintro x (rfl | ⟨hx, hxc⟩) y hy
    · rw [hpar] at hy
      cases hy
      exact Or.inr ⟨hgR, hgc⟩
    · rw [changeRbNode_parent hchange (hne x hx) hxc] at hy
      refine ((hclosed x hx).1 y hy).imp_right fun hyR => ⟨hyR, ?_⟩
      rintro rfl
      -- nothing is below the replacement
      obtain ⟨e, he⟩ := hc.child_of_parent (hwhole x hx) hy
      rw [hleaf e] at he
      cases he
  · rintro x (rfl | ⟨hx, hxc⟩) e y hy
    · rw [hcha, hleaf] at hy
      cases hy
    · rw [hch x hx hxc] at hy
      split_ifs at hy with hgx
      · cases hy
        exact Or.inl rfl
      · refine ((hclosed x hx).2 e y hy).imp_right fun hyR => ⟨hyR, ?_⟩
        rintro rfl
        -- the replacement is below `g`, on the left
        have hxg := hc.parent_of_child (hwhole x hx) hy
        rw [hcp, Option.some.injEq] at hxg
        subst hxg
        rw [Option.mem_def, hc.child_eq_iff rfl, hg] at hy
        exact hgx ⟨hy, rfl⟩

/-- The old left child of `a` keeps `a` for its parent. -/
theorem removeNode_far {n : ℕ}
    (h : N.Represents (fill fs (.node a l (fill (g :: gs) (.node c .nil r)))))
    (hg : g.side = .left) (hroot : rootOf (fill (g :: gs) (.node c .nil r)) = some x)
    (hloop : Looping.loop (replaceTurn N) n x = some c) (hb : rootOf l = some b)
    (hrun : removeNode fuel a N = some N₂) : N₂.parent b = some a := by
  have hl : l ≠ .nil := by
    rintro rfl
    cases hb
  have hr : fill (g :: gs) (.node c .nil r) ≠ .nil := by
    intro heq
    rw [heq] at hroot
    cases hroot
  obtain ⟨c', N₁, hfind, hchange, hunlink⟩ := removeNode_eq h hl hr hrun
  rw [findRightReplaceNode, h.child_node.2, hroot] at hfind
  obtain rfl : c' = c := Looping.loop_unique hfind hloop
  obtain ⟨N₁', hN₁', -, -, hcha, -⟩ := changeRbNode_far h hg
  obtain rfl : N₁ = N₁' := Option.some.inj (hchange.symm.trans hN₁')
  have hleft : N.Represents (fill (⟨.left, a, fill (g :: gs) (.node c' .nil r)⟩ :: fs) l) := h
  obtain ⟨-, -, hal, -, hdis⟩ := (nodup_join (d := .left)).mp (nodup_fill.mp h.nodup).1
  have hbl : b ∈ inorder l := rootOf_mem hb
  have hba : b ≠ a := fun heq => hal (heq ▸ hbl)
  have hbR : b ∉ inorder (fill (g :: gs) (.node c' .nil r)) := fun hx => hdis hbl hx
  have hbc : b ≠ c' := fun heq => hbR (mem_inorder_fill.mpr (Or.inl (by simp [heq])))
  have hparent : N₁.parent b = some a :=
    (changeRbNode_parent hchange hba hbc).trans (hleft.parent_eq hb)
  have hc : N.Represents (fill ((g :: gs) ++ ⟨.right, a, l⟩ :: fs) (.node c' .nil r)) := by
    rw [fill_append]
    exact h
  cases r with
  | nil =>
    rw [← hparent]
    apply (unlinkNode_fenced (far_fenced h hg hchange) (Or.inl rfl) hunlink).outside
    rintro (heq | ⟨hx, -⟩)
    · exact hba heq
    · exact hbR hx
  | node c₂ u v =>
    have hcl : N₁.child .left a = none := (hcha _).trans hc.child_node.1
    have hcr : N₁.child .right a = some c₂ := (hcha _).trans hc.child_node.2
    have hbc₂ : b ≠ c₂ := fun heq => hbR (mem_inorder_fill.mpr (Or.inl (by simp [heq])))
    rw [unlinkNode, hcl, hcr] at hunlink
    split_ifs at hunlink
    · exact (deleteLeafNode_parent hunlink).trans hparent
    · obtain ⟨N₃, hchange₂, hdel⟩ := Option.bind_eq_some_iff.mp hunlink
      exact (deleteLeafNode_parent hdel).trans
        ((changeRbNode_parent hchange₂ hba hbc₂).trans hparent)

end Far

end MgRaffle.RbTree
