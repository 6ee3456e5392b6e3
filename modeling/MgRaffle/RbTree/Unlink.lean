import MgRaffle.RbTree.Leaf
import MgRaffle.RbTree.Restore

namespace MgRaffle.RbTree

open LinkedTree

variable {ι : Type*} [DecidableEq ι] {red : ι → Bool} {fs : List (Frame ι)}

section Code

/-- `delete_rb_node` from its loop on, for a black node `d` without children. The inner `none` is a
null pointer that is followed. -/
def fixAndUnlink (fuel : ℕ) (d : ι) (N : Nodes ι) : Option (Option (Nodes ι)) :=
  (Looping.outcome fixTurn fuel (d, N.parent d, N)).map fun r =>
    r.bind fun q => deleteLeafNode d (q.2.setType q.1 .black)

end Code

section Unlink

variable {N N' : Nodes ι} {a : ι} {m : Mended ι}

theorem deleteLeafNode_red (h : deleteLeafNode a N = some N') : N'.red = N.red := by
  unfold deleteLeafNode at h
  split_ifs at h with hroot
  · cases h
    rfl
  · obtain ⟨p, -, hN'⟩ := Option.bind_eq_some_iff.mp h
    cases hN'
    rfl

theorem fixAndUnlink_none (h : N.Represents (fill fs (.node a .nil .nil)))
    (hm : mend N.red a fs = none) : fixAndUnlink (fs.length + 1) a N = some none := by
  have hparent : N.parent a = above fs := h.parent_eq rfl
  obtain ⟨r, hr, hagree⟩ := loop_refines ⟨h, rfl⟩ rfl
  rw [hm] at hagree
  rw [fixAndUnlink, hparent, hr, hagree]
  rfl

theorem fixAndUnlink_some (h : N.Represents (fill fs (.node a .nil .nil)))
    (hm : mend N.red a fs = some m) :
    ∃ N', fixAndUnlink (fs.length + 1) a N = some (some N') ∧ N'.red = m.red ∧
      N'.Represents (fill m.path .nil) ∧
      inorder (fill m.path .nil) = (inorder (fill fs (.node a .nil .nil))).filter (· ≠ a) := by
  have hparent : N.parent a = above fs := h.parent_eq rfl
  obtain ⟨r, hr, hagree⟩ := loop_refines ⟨h, rfl⟩ rfl
  rw [hm] at hagree
  obtain ⟨q, hq, hred, hcar⟩ := hagree
  have hrep : (q.2.setType q.1 .black).Represents (fill m.path (.node a .nil .nil)) := hcar.1
  obtain ⟨N', hdel, hN'⟩ := deleteLeafNode_represents hrep
  refine ⟨N', ?_, ?_, hN', ?_⟩
  · rw [fixAndUnlink, hparent, hr, hq, Option.map_some, Option.bind_some, hdel]
  · rw [deleteLeafNode_red hdel, hred]
  · rw [inorder_fill_erase hrep.nodup, hcar.2]

theorem fixAndUnlink_unique {fuel fuel' : ℕ} {r r' : Option (Nodes ι)}
    (h : fixAndUnlink fuel a N = some r) (h' : fixAndUnlink fuel' a N = some r') : r = r' := by
  obtain ⟨o, ho, hr⟩ := Option.map_eq_some_iff.mp h
  obtain ⟨o', ho', hr'⟩ := Option.map_eq_some_iff.mp h'
  rw [← hr, ← hr', Looping.outcome_unique ho ho']

/-- A red-black tree without one of its black leaves is short of a black node. -/
theorem lacking_of_leaf (h : RedBlack red (fill fs (.node a .nil .nil)))
    (hnd : (inorder (fill fs (.node a .nil .nil))).Nodup) (ha : red a = false) :
    Lacking red a fs .nil 0 := by
  have hpath := balanced_fill.mp h.balanced
  obtain ⟨n, ⟨m, hm, -, hn⟩, hpath⟩ := hpath
  have hzero : m = 0 := hm
  rw [weight_of_black ha, hzero, Nat.zero_add] at hn
  rw [hn] at hpath
  refine ⟨⟨(proper_fill.mp h.proper).2.1, rfl, hpath⟩, trivial, Or.inr ⟨rfl, ha⟩, ?_, ?_⟩
  · exact fun hx => (nodup_fill.mp hnd).2.2 (by simp) hx
  · rw [inorder_fill_erase hnd]
    exact hnd.filter _

end Unlink

section Theorem

variable {N : Nodes ι} {a : ι}

/-- The node `d` of the tree `t` is deleted, and the colours are as they are to be. -/
def Rebalances (N : Nodes ι) (t : BinaryTree ι) (d : ι) : Prop :=
  ∃ fuel N' t', fixAndUnlink fuel d N = some (some N') ∧ N'.Represents t' ∧
    inorder t' = (inorder t).filter (· ≠ d) ∧ Proper N'.red t' ∧ ∃ n, LinkedTree.Balanced N'.red t' n

theorem rebalances_of_mendable (h : N.Represents (fill fs (.node a .nil .nil)))
    (hrb : RedBlack N.red (fill fs (.node a .nil .nil))) (ha : N.red a = false)
    (hok : mendable N.red fs = true) : Rebalances N (fill fs (.node a .nil .nil)) a := by
  obtain ⟨m, hm, hgood⟩ := mend_good (lacking_of_leaf hrb h.nodup ha) fun _ => hok
  obtain ⟨N', hrun, hred, hrep, hin⟩ := fixAndUnlink_some h hm
  refine ⟨_, N', _, hrun, hrep, hin, ?_⟩
  rw [hred]
  exact hgood

theorem mendable_of_rebalances (h : N.Represents (fill fs (.node a .nil .nil)))
    (hrb : RedBlack N.red (fill fs (.node a .nil .nil))) (ha : N.red a = false)
    (hreb : Rebalances N (fill fs (.node a .nil .nil)) a) : mendable N.red fs = true := by
  by_contra hok
  rw [Bool.not_eq_true] at hok
  obtain ⟨fuel, N', t', hrun, hrep, -, hproper, -⟩ := hreb
  cases hm : mend N.red a fs with
  | none =>
    cases fixAndUnlink_unique hrun (fixAndUnlink_none h hm)
  | some m =>
    obtain ⟨N₁, hrun₁, hred, hrep₁, -⟩ := fixAndUnlink_some h hm
    cases fixAndUnlink_unique hrun hrun₁
    apply mend_bad (lacking_of_leaf hrb h.nodup ha) ha hok hm
    rw [← hred, hrep₁.unique hrep]
    exact hproper

/-- The rebalancing of a deletion is correct exactly if a sibling that it comes to, whose inner child
alone is red, is always a right one with an outer child. -/
theorem rebalances_iff (h : N.Represents (fill fs (.node a .nil .nil)))
    (hrb : RedBlack N.red (fill fs (.node a .nil .nil))) (ha : N.red a = false) :
    Rebalances N (fill fs (.node a .nil .nil)) a ↔ mendable N.red fs = true :=
  ⟨mendable_of_rebalances h hrb ha, rebalances_of_mendable h hrb ha⟩

/-- A black root `1` with the black children `0` and `3`, the second with a red left child `2`. -/
def innerNephew : Nodes ℕ where
  parent
    | 0 => some 1
    | 2 => some 3
    | 3 => some 1
    | _ => none
  child
    | .left, 1 => some 0
    | .left, 3 => some 2
    | .right, 1 => some 3
    | _, _ => none
  root := some 1
  type a := if a = 2 then .red else .black

theorem innerNephew_represents : innerNephew.Represents
    (fill [⟨.left, 1, .node 3 (.node 2 .nil .nil) .nil⟩] (.node 0 .nil .nil)) :=
  ⟨⟨rfl, rfl, ⟨rfl, rfl, rfl, rfl⟩, rfl, rfl, ⟨rfl, rfl, rfl, rfl⟩, rfl⟩, by decide⟩

theorem innerNephew_redBlack : RedBlack innerNephew.red
    (fill [⟨.left, 1, .node 3 (.node 2 .nil .nil) .nil⟩] (.node 0 .nil .nil)) := by
  refine ⟨?_, ?_, ?_⟩
  · simp [fill, Frame.attach, join, Nodes.red, innerNephew]
  · simp [fill, Frame.attach, join, Proper, Nodes.red, innerNephew]
  · exact ⟨2, 1, ⟨0, rfl, rfl, rfl⟩, ⟨0, ⟨0, rfl, rfl, rfl⟩, rfl, rfl⟩, rfl⟩

theorem rebalances_iff_innerNephew :
    Rebalances innerNephew
        (fill [⟨.left, 1, .node 3 (.node 2 .nil .nil) .nil⟩] (.node 0 .nil .nil)) 0 ↔
      mendable innerNephew.red [⟨.left, 1, .node 3 (.node 2 .nil .nil) .nil⟩] = true :=
  rebalances_iff innerNephew_represents innerNephew_redBlack rfl

/-- The code follows the null pointer to the outer child. -/
theorem inner_nephew_unmended : ∃ fs : List (Frame ℕ),
    innerNephew.Represents (fill fs (.node 0 .nil .nil)) ∧
      RedBlack innerNephew.red (fill fs (.node 0 .nil .nil)) ∧ innerNephew.red 0 = false ∧
      innerNephew.root ≠ some 0 ∧ ¬ Rebalances innerNephew (fill fs (.node 0 .nil .nil)) 0 := by
  refine ⟨_, innerNephew_represents, innerNephew_redBlack, rfl, by decide, ?_⟩
  intro hreb
  have hok := mendable_of_rebalances innerNephew_represents innerNephew_redBlack rfl hreb
  revert hok
  decide

end Theorem

end MgRaffle.RbTree
