import MgRaffle.Library.Mirror
import MgRaffle.RbTree.Unlink

namespace MgRaffle.RbTree

open LinkedTree

variable {ι : Type*} [DecidableEq ι] {red : ι → Bool} {node b p : ι} {d : Side}
  {t u v : BinaryTree ι} {fs : List (Frame ι)} {n : ℕ}

omit [DecidableEq ι] in
def Mended.mirror (m : Mended ι) : Mended ι := ⟨m.red, m.path.map Frame.mirror⟩

omit [DecidableEq ι] in
def Nodes.mirror (N : Nodes ι) : Nodes ι := N.withLinks N.toLinks.mirror

omit [DecidableEq ι] in
/-- An inner child alone is red only where there is no outer one. -/
def symmetric (red : ι → Bool) (fs : List (Frame ι)) : Bool :=
  levels red (fun _ outer => (rootOf outer).isNone) fs

section Trees

variable {up up' : (ι → Bool) → Option (Mended ι)}

omit [DecidableEq ι] in
@[simp] theorem rootIsRed_mirror (red : ι → Bool) (t : BinaryTree ι) :
    rootIsRed red (mirror t) = rootIsRed red t := by
  rw [rootIsRed, rootIsRed, rootOf_mirror]

omit [DecidableEq ι] in
theorem blackTest_mirror (red : ι → Bool) (d : Side) (u v : BinaryTree ι) :
    blackTest red d (mirror u) (mirror v) = blackTest red d u v := by
  cases d with
  | left => rw [blackTest, blackTest, rootIsRed_mirror, rootIsRed_mirror]
  | right =>
    unfold blackTest
    rw [rootIsRed_mirror]
    cases u <;> cases v <;> rfl

theorem lend_mirror (red : ι → Bool) (node : ι) (d : Side) (p b : ι) (u v : BinaryTree ι)
    (fs : List (Frame ι)) :
    lend red node d.other p b (mirror u) (mirror v) (fs.map Frame.mirror) =
      (lend red node d p b u v fs).map Mended.mirror := by
  cases v with
  | nil => rfl
  | node a v₁ v₂ =>
    by_cases ha : red a = true
    · rw [lend_red ha, mirror, lend_red ha]
      rfl
    · cases u with
      | nil => simp [lend, mirror, ha]
      | node c u₁ u₂ =>
        rw [lend_black ha, mirror, mirror, lend_black ha]
        cases d <;> rfl

/-- The two turns part only at a red inner child next to a black outer one. -/
theorem settle_mirror (h : Short red (⟨d, p, join d b u v⟩ :: fs) t n)
    (hok : rootIsRed red v = false → rootIsRed red u = true → v = .nil)
    (hup : rootIsRed red v = false → rootIsRed red u = false →
      up' (Function.update red b true) = (up (Function.update red b true)).map Mended.mirror) :
    settle red node d.other p (mirror (join d b u v)) (fs.map Frame.mirror) up' =
      (settle red node d p (join d b u v) fs up).map Mended.mirror := by
  rw [mirror_join, settle_eq, settle_eq, blackTest_mirror]
  cases hv : rootIsRed red v with
  | true =>
    rw [blackTest_red hv, blackTest_red hv]
    exact lend_mirror ..
  | false =>
    cases hu : rootIsRed red u with
    | true =>
      rw [hok hv hu]
      cases u with
      | nil => cases hu
      | node c u₁ u₂ =>
        have hc : red c = true := hu
        cases d <;> simp [blackTest, rootIsRed, rootOf, hc, lend, mirror]
    | false =>
      rw [blackTest_black h hv hu, blackTest_black h hv hu]
      dsimp only
      rw [hup hv hu, Option.map_map, Option.map_map]
      apply congrArg (Option.map · (up (Function.update red b true)))
      funext m
      rw [Function.comp_apply, Function.comp_apply, Mended.mirror, Mended.mirror, List.map_cons,
        Frame.mirror, mirror_join]

omit [DecidableEq ι] in
theorem map_mirror_cons (d : Side) (p b : ι) (u v : BinaryTree ι) (fs : List (Frame ι)) :
    (⟨d, p, join d b u v⟩ :: fs).map Frame.mirror =
      ⟨d.other, p, join d.other b (mirror u) (mirror v)⟩ :: fs.map Frame.mirror := by
  rw [List.map_cons, Frame.mirror, mirror_join]

omit [DecidableEq ι] in
theorem isNone_rootOf : (rootOf t).isNone = true ↔ t = .nil := by
  cases t with
  | nil => simp [rootOf]
  | node a l r => simp [rootOf]

theorem mend_mirror (h : Lacking red node fs t n)
    (hsym : red node = false → symmetric red fs = true) :
    mend red node (fs.map Frame.mirror) = (mend red node fs).map Mended.mirror := by
  revert hsym
  apply h.induct (P := fun red node fs _ => (red node = false → symmetric red fs = true) →
    mend red node (fs.map Frame.mirror) = (mend red node fs).map Mended.mirror)
  · intro red node fs t n h hnode _
    rw [mend_red hnode, mend_red hnode]
    rfl
  · intro red node t n h hnode _
    rfl
  · intro red node d p b u v fs t n h hnode hb ih hsym
    have hlevels := hsym hnode
    rw [map_mirror_cons, mend_black hnode hb, mend_black hnode hb, ← mirror_join]
    apply settle_mirror h.short
    · intro hv hu
      rw [symmetric, levels_black hb] at hlevels
      simpa only [hv, hu, Bool.false_eq_true, if_false, if_true, isNone_rootOf] using hlevels
    · intro hv hu
      rw [symmetric, h.levels_up hb hv hu] at hlevels
      apply ih hv hu
      intro hp
      rw [hp, Bool.false_or] at hlevels
      exact hlevels
  · intro red node d p b c u₁ u₂ v fs t n h hnode hb hlack hnode₁ hc hsym
    have hlevels := hsym hnode
    rw [symmetric, levels_rotate h.nodup hb rfl] at hlevels
    rw [map_mirror_cons, mend_rotated hnode hb, mend_rotated hnode hb]
    apply settle_mirror hlack.short
    · intro hv hu
      simpa only [hv, hu, Bool.false_eq_true, if_false, if_true, isNone_rootOf] using hlevels
    · intro hv hu
      rfl

end Trees

section Levels

variable {ok ok₁ ok₂ : Side → BinaryTree ι → Bool}

omit [DecidableEq ι] in
theorem blackSibling_mirror (red : ι → Bool) (f : Frame ι) :
    blackSibling red f.mirror = mirror (blackSibling red f) := by
  unfold blackSibling Frame.mirror
  dsimp only
  rw [rootIsRed_mirror]
  split_ifs
  · rw [mirror_sub]
  · rfl

omit [DecidableEq ι] in
theorem levels_mirror (red : ι → Bool) (ok : Side → BinaryTree ι → Bool) (fs : List (Frame ι)) :
    levels red ok (fs.map Frame.mirror) =
      levels red (fun d outer => ok d.other (mirror outer)) fs := by
  induction fs with
  | nil => rfl
  | cons f fs ih =>
    have hside : f.mirror.side = f.side.other := rfl
    have hred : rootIsRed red f.mirror.sibling = rootIsRed red f.sibling := rootIsRed_mirror ..
    have hid : f.mirror.id = f.id := rfl
    rw [List.map_cons, levels, levels, blackSibling_mirror, hside, hred, hid, ← mirror_sub,
      ← mirror_sub, rootIsRed_mirror, rootIsRed_mirror, ih]

omit [DecidableEq ι] in
theorem levels_not (hok : ∀ d outer, ok d outer = false → ok₁ d outer = !ok₂ d outer)
    (hbad : levels red ok fs = false) : levels red ok₁ fs = !levels red ok₂ fs := by
  induction fs with
  | nil => cases hbad
  | cons f fs ih =>
    rw [levels] at hbad ⊢
    rw [levels]
    split_ifs at hbad ⊢ with hv hu
    · exact hok _ _ hbad
    · rw [Bool.or_eq_false_iff] at hbad
      rw [hbad.1, Bool.false_or, Bool.false_or, ih hbad.2]

omit [DecidableEq ι] in
theorem mendable_mirror (hsym : symmetric red fs = false) :
    mendable red (fs.map Frame.mirror) = !mendable red fs := by
  rw [mendable, levels_mirror]
  apply levels_not _ hsym
  intro d outer houter
  have hsome : (rootOf outer).isSome = true := by
    rw [Option.isNone_eq_false_iff] at houter
    exact houter
  rw [rootOf_mirror, hsome]
  cases d <;> rfl

end Levels

section Theorem

variable {N N' : Nodes ι} {a : ι}

/-- The trees are mirror images with the same colours. -/
def MirrorImage (N N' : Nodes ι) : Prop :=
  ∃ t, N.Represents t ∧ N'.Represents (mirror t) ∧ ∀ x ∈ inorder t, N'.red x = N.red x

/-- The node `d` is deleted from the mirror image as from the tree itself, and the code follows a null
pointer in both or in none. -/
def Mirrors (N : Nodes ι) (d : ι) : Prop :=
  ∃ fuel r r', fixAndUnlink fuel d N = some r ∧ fixAndUnlink fuel d N.mirror = some r' ∧
    Option.Rel MirrorImage r r'

omit [DecidableEq ι] in
theorem MirrorImage.symm (h : MirrorImage N N') : MirrorImage N' N := by
  obtain ⟨t, ht, ht', hred⟩ := h
  refine ⟨mirror t, ht', ?_, ?_⟩
  · rw [mirror_mirror]
    exact ht
  · intro x hx
    exact (hred x (mem_inorder_mirror.mp hx)).symm

omit [DecidableEq ι] in
theorem mirror_mirror_nodes (N : Nodes ι) : N.mirror.mirror = N := by
  have hchild : (fun d : Side => N.child d.other.other) = N.child := by
    funext d
    rw [Side.other_other]
  unfold Nodes.mirror Nodes.withLinks Links.mirror
  dsimp only
  rw [hchild]

theorem Mirrors.symm (h : Mirrors N a) : Mirrors N.mirror a := by
  obtain ⟨fuel, r, r', hr, hr', hrel⟩ := h
  refine ⟨fuel, r', r, hr', ?_, ?_⟩
  · rw [mirror_mirror_nodes]
    exact hr
  · cases hrel with
    | none => exact .none
    | some himage => exact .some himage.symm

/-- Where the runs are mirror images, one cannot repair the colours alone. -/
theorem Mirrors.rebalances (h : Mirrors N a) (hreb : Rebalances N t a) :
    Rebalances N.mirror (mirror t) a := by
  obtain ⟨fuel, r, r', hr, hr', hrel⟩ := h
  obtain ⟨fuel', N', t', hrun, hrep, hin, hproper, n, hbal⟩ := hreb
  cases fixAndUnlink_unique hr hrun
  cases hrel with
  | some himage =>
    obtain ⟨t'', ht, ht', hred⟩ := himage
    have heq := ht.unique hrep
    rw [heq] at ht' hred
    have hredMirror : ∀ x ∈ inorder (mirror t'), _ = N'.red x := fun x hx =>
      hred x (mem_inorder_mirror.mp hx)
    refine ⟨fuel, _, mirror t', hr', ht', ?_, hproper.mirror.congr hredMirror, n,
      hbal.mirror.congr hredMirror⟩
    rw [inorder_mirror, inorder_mirror, hin, List.filter_reverse]

omit [DecidableEq ι] in
theorem mirror_represents (h : N.Represents (fill fs (.node a .nil .nil))) :
    N.mirror.Represents (fill (fs.map Frame.mirror) (.node a .nil .nil)) := by
  have hmirror : N.toLinks.mirror.Represents _ := h.mirror
  rw [mirror_fill] at hmirror
  exact hmirror

theorem mirrors_of_symmetric (h : N.Represents (fill fs (.node a .nil .nil)))
    (hrb : RedBlack N.red (fill fs (.node a .nil .nil))) (ha : N.red a = false)
    (hsym : symmetric N.red fs = true) : Mirrors N a := by
  have hmend := mend_mirror (lacking_of_leaf hrb h.nodup ha) fun _ => hsym
  have hrep := mirror_represents h
  have hlen : (fs.map Frame.mirror).length = fs.length := List.length_map ..
  cases hm : mend N.red a fs with
  | none =>
    rw [hm] at hmend
    have hrun := fixAndUnlink_none hrep hmend
    rw [hlen] at hrun
    exact ⟨_, none, none, fixAndUnlink_none h hm, hrun, .none⟩
  | some m =>
    rw [hm] at hmend
    obtain ⟨N₁, hrun₁, hred₁, hrep₁, -⟩ := fixAndUnlink_some h hm
    obtain ⟨N₂, hrun₂, hred₂, hrep₂, -⟩ := fixAndUnlink_some hrep hmend
    rw [hlen] at hrun₂
    refine ⟨_, some N₁, some N₂, hrun₁, hrun₂, .some ⟨_, hrep₁, ?_, ?_⟩⟩
    · rw [mirror_fill]
      exact hrep₂
    · intro x _
      rw [hred₁, hred₂]
      rfl

theorem symmetric_of_mirrors (h : N.Represents (fill fs (.node a .nil .nil)))
    (hrb : RedBlack N.red (fill fs (.node a .nil .nil))) (ha : N.red a = false)
    (hmir : Mirrors N a) : symmetric N.red fs = true := by
  by_contra hsym
  rw [Bool.not_eq_true] at hsym
  have hrep := mirror_represents h
  have hfill : mirror (fill fs (.node a .nil .nil)) =
      fill (fs.map Frame.mirror) (.node a .nil .nil) := mirror_fill ..
  have hrbMirror : RedBlack N.mirror.red (fill (fs.map Frame.mirror) (.node a .nil .nil)) := by
    rw [← hfill]
    exact hrb.mirror
  have hnot : mendable N.mirror.red (fs.map Frame.mirror) = !mendable N.red fs :=
    mendable_mirror hsym
  cases hok : mendable N.red fs with
  | true =>
    have hreb := hmir.rebalances (rebalances_of_mendable h hrb ha hok)
    rw [hfill] at hreb
    have hok' := mendable_of_rebalances hrep hrbMirror ha hreb
    rw [hnot, hok] at hok'
    cases hok'
  | false =>
    rw [hok] at hnot
    have hreb := hmir.symm.rebalances (rebalances_of_mendable hrep hrbMirror ha hnot)
    rw [mirror_mirror_nodes, ← hfill, mirror_mirror] at hreb
    have hok' := mendable_of_rebalances h hrb ha hreb
    rw [hok] at hok'
    cases hok'

/-- The two halves of the loop are mirror images exactly if it comes to no sibling with a red inner
child and a black outer one. -/
theorem mirrors_iff (h : N.Represents (fill fs (.node a .nil .nil)))
    (hrb : RedBlack N.red (fill fs (.node a .nil .nil))) (ha : N.red a = false) :
    Mirrors N a ↔ symmetric N.red fs = true :=
  ⟨symmetric_of_mirrors h hrb ha, mirrors_of_symmetric h hrb ha⟩

/-- A black tree of the nodes `0` to `8`, but `5`, the inner child of the root's right child, is red. -/
def blackNephew : Nodes ℕ where
  parent
    | 0 => some 1
    | 1 => some 3
    | 2 => some 1
    | 4 => some 5
    | 5 => some 7
    | 6 => some 5
    | 7 => some 3
    | 8 => some 7
    | _ => none
  child
    | .left, 1 => some 0
    | .left, 3 => some 1
    | .left, 5 => some 4
    | .left, 7 => some 5
    | .right, 1 => some 2
    | .right, 3 => some 7
    | .right, 5 => some 6
    | .right, 7 => some 8
    | _, _ => none
  root := some 3
  type a := if a = 5 then .red else .black

/-- The steps up from the node `0`. -/
def blackNephewPath : List (Frame ℕ) :=
  [⟨.left, 1, .node 2 .nil .nil⟩, ⟨.left, 3, .node 7 (.node 5 (.node 4 .nil .nil) (.node 6 .nil .nil))
    (.node 8 .nil .nil)⟩]

theorem blackNephew_represents :
    blackNephew.Represents (fill blackNephewPath (.node 0 .nil .nil)) :=
  ⟨⟨rfl, rfl, ⟨rfl, rfl, ⟨rfl, rfl, rfl, rfl⟩, rfl, rfl, rfl, rfl⟩, rfl, rfl,
    ⟨rfl, rfl, ⟨rfl, rfl, rfl, rfl⟩, rfl, rfl, rfl, rfl⟩, rfl, rfl, rfl, rfl⟩, by decide⟩

theorem blackNephew_redBlack :
    RedBlack blackNephew.red (fill blackNephewPath (.node 0 .nil .nil)) := by
  refine ⟨?_, ?_, ?_⟩
  · simp [blackNephewPath, fill, Frame.attach, join, Nodes.red, blackNephew]
  · simp [blackNephewPath, fill, Frame.attach, join, Proper, Nodes.red, blackNephew]
  · have hleaf (x : ℕ) (hx : weight blackNephew.red x = 1) :
        Balanced blackNephew.red (.node x .nil .nil) 1 := ⟨0, rfl, rfl, by rw [hx]⟩
    exact ⟨3, 2, ⟨1, hleaf 0 rfl, hleaf 2 rfl, rfl⟩,
      ⟨1, ⟨1, hleaf 4 rfl, hleaf 6 rfl, rfl⟩, hleaf 8 rfl, rfl⟩, rfl⟩

theorem mirrors_iff_blackNephew : Mirrors blackNephew 0 ↔
    symmetric blackNephew.red blackNephewPath = true :=
  mirrors_iff blackNephew_represents blackNephew_redBlack rfl

theorem black_nephew_unmirrored : ∃ t : BinaryTree ℕ, blackNephew.Represents t ∧
    RedBlack blackNephew.red t ∧ blackNephew.red 0 = false ∧ blackNephew.root ≠ some 0 ∧
    (∀ d, blackNephew.child d 0 = none) ∧ 0 ∈ inorder t ∧ ¬ Mirrors blackNephew 0 := by
  refine ⟨_, blackNephew_represents, blackNephew_redBlack, rfl, by decide, ?_, by decide, ?_⟩
  · intro d
    cases d <;> rfl
  · intro hmir
    have hsym := symmetric_of_mirrors blackNephew_represents blackNephew_redBlack rfl hmir
    revert hsym
    decide

end Theorem

end MgRaffle.RbTree
