import MgRaffle.RbTree.Fixup

namespace MgRaffle.RbTree

open LinkedTree

variable {ι : Type*} [DecidableEq ι] {N : Nodes ι} {a : ι} {f : Frame ι} {fs : List (Frame ι)}
  {fuel : ℕ}

theorem deleteLeafNode_represents (h : N.Represents (fill fs (.node a .nil .nil))) :
    ∃ N', deleteLeafNode a N = some N' ∧ N'.Represents (fill fs .nil) := by
  cases fs with
  | nil =>
    have hroot : N.root = some a := h.root_eq
    exact ⟨_, if_pos hroot, rfl, List.nodup_nil⟩
  | cons f fs =>
    have hroot : N.root ≠ some a := h.root_ne (by simp)
    have hparent : N.parent a = some f.id := h.parent_eq rfl
    have hside : (if N.child .left f.id = some a then Side.left else Side.right) = f.side := by
      rw [if_congr (h.child_eq_iff rfl) rfl rfl]
      cases f.side <;> rfl
    refine ⟨N.withLinks (N.setChild f.side f.id none), ?_, ?_⟩
    · simp only [deleteLeafNode, if_neg hroot, hparent, Option.bind_eq_bind, Option.bind_some, hside]
      rfl
    · have hnil : (N.withLinks (N.setChild f.side f.id none)).toLinks.Holds (some f.id) none .nil :=
        rfl
      refine h.replace hnil (by simp) rfl (fun _ _ => rfl) (by simp) ?_
      intro x hx d hd
      simp [and_comm.not.mp hd]

/-- A red-black tree without one of its black leaves is short of a black node there. -/
theorem short_of_leaf (h : RedBlack N.red (fill fs (.node a .nil .nil)))
    (hnd : (inorder (fill fs (.node a .nil .nil))).Nodup) (ha : N.red a = false) :
    Short (ghost a N.red) fs (.node a .nil .nil) 0 := by
  obtain ⟨n, ⟨m, hm, -, hn⟩, hpath⟩ := balanced_fill.mp h.balanced
  obtain rfl : m = 0 := hm
  rw [weight_of_black ha, Nat.zero_add] at hn
  subst hn
  have hghost : ∀ x ∈ pathNodes fs, ghost a N.red x = N.red x := by
    intro x hx
    apply ghost_of_ne
    rintro rfl
    exact (nodup_fill.mp hnd).2.2 (by simp) hx
  refine ⟨(proper_fill.mp h.proper).2.1.congr hghost, ⟨0, rfl, rfl, ?_⟩, hpath.congr hghost⟩
  rw [weight_of_red (by simp [ghost])]

theorem inorder_fill_erase (hnd : (inorder (fill fs (.node a .nil .nil))).Nodup) :
    inorder (fill fs .nil) = (inorder (fill fs (.node a .nil .nil))).filter (· ≠ a) := by
  have ha : a ∉ pathNodes fs := fun hx => (nodup_fill.mp hnd).2.2 (by simp) hx
  have hne (x : ι) (hx : x ∈ inorder (fill fs .nil)) : x ≠ a := by
    rintro rfl
    rw [mem_inorder_fill] at hx
    exact hx.elim nofun ha
  rw [inorder_fill, inorder_nil, List.nil_append] at hne ⊢
  rw [inorder_fill, List.filter_append, List.filter_append]
  have hbefore : (before fs).filter (· ≠ a) = before fs :=
    List.filter_eq_self.mpr fun x hx => decide_eq_true (hne x (List.mem_append_left _ hx))
  have hafter : (after fs).filter (· ≠ a) = after fs :=
    List.filter_eq_self.mpr fun x hx => decide_eq_true (hne x (List.mem_append_right _ hx))
  rw [hbefore, hafter]
  simp

/-- A leaf goes, unless the code takes a black one whose sibling is lopsided. -/
theorem unlinkNode_leaf (h : N.Represents (fill fs (.node a .nil .nil)))
    (hrb : RedBlack N.red (fill fs (.node a .nil .nil)))
    (hlop : N.red a = false → ∀ f ∈ fs.head?, lopsided N.red f = false)
    (hfuel : fs.length + 1 < fuel) : ∃ N' t', unlinkNode fuel a N = some N' ∧ N'.Represents t' ∧
      inorder t' = (inorder (fill fs (.node a .nil .nil))).filter (· ≠ a) := by
  cases hred : N.red a with
  | true =>
    obtain ⟨N', hdel, hN'⟩ := deleteLeafNode_represents h
    exact ⟨N', _, (if_pos hred).trans hdel, hN', inorder_fill_erase h.nodup⟩
  | false =>
    obtain ⟨hl, hr⟩ := h.child_node
    have hstart : Fixing a (inorder (fill fs (.node a .nil .nil))) (fs.length + 1)
        (a, N.parent a, N) :=
      ⟨fs, [], ⟨h, rfl⟩, rfl, h.parent_eq rfl, fun _ => ⟨Nat.lt_succ_self _, 0,
        short_of_leaf hrb h.nodup hred, fun _ => hlop hred⟩⟩
    obtain ⟨⟨node, N₁⟩, hloop, hs, hcar, hxs⟩ :=
      Looping.loop_total (fun _ _ hs => fixing_turn hs) hstart hfuel
    have hdel : (N₁.setType node .black).Represents (fill hs (.node a .nil .nil)) := hcar
    obtain ⟨N', hdel, hN'⟩ := deleteLeafNode_represents hdel
    refine ⟨N', _, ?_, hN', ?_⟩
    · rw [unlinkNode, hl, hr]
      simp [hred, rootOf, hloop, hdel]
    · rw [← hxs]
      exact inorder_fill_erase hcar.nodup

/-- Next to a lopsided sibling the code follows a null pointer. -/
theorem unlinkNode_lopsided (h : N.Represents (fill (f :: fs) (.node a .nil .nil)))
    (hrb : RedBlack N.red (fill (f :: fs) (.node a .nil .nil))) (hred : N.red a = false)
    (hlop : lopsided N.red f = true) : unlinkNode fuel a N = none := by
  obtain ⟨hl, hr⟩ := h.child_node
  have hparent : N.parent a = some f.id := h.parent_eq rfl
  have hroot : N.root ≠ some a := h.root_ne (by simp)
  have hshort : Short (ghost a N.red) (f :: fs) (fill [] (.node a .nil .nil)) 0 :=
    short_of_leaf hrb h.nodup hred
  have hturn : fixTurn (a, some f.id, N) = none := by
    rw [fixTurn_eq ⟨h, rfl⟩ rfl hred hroot]
    have hcar : Carries _ N.toLinks (f :: fs) (fill [] (.node a .nil .nil)) := ⟨h, rfl⟩
    exact fixSide_lopsided a hcar hshort hlop
  rw [unlinkNode, hl, hr, hparent]
  simp [hred, rootOf, Looping.loop_none hturn]

end MgRaffle.RbTree
