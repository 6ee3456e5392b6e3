import MgRaffle.RbTree.Delete

namespace MgRaffle.RbTree

open LinkedTree

variable {ι : Type*} [DecidableEq ι] {xs : List ι} {L : Links ι} {N : Nodes ι} {d : Side}
  {p b node : ι} {t u v : BinaryTree ι} {f : Frame ι} {fs : List (Frame ι)}

/-- The links are those of a tree of the nodes `xs`, which has `t` at the end of the path. -/
def Carries (xs : List ι) (L : Links ι) (fs : List (Frame ι)) (t : BinaryTree ι) : Prop :=
  L.Represents (fill fs t) ∧ inorder (fill fs t) = xs

section Steps

/-- The sibling comes up in the place of the parent. -/
theorem rotate_carries (h : Carries xs L (⟨d, p, join d b u v⟩ :: fs) t) :
    ∃ L', rotate d p L = some L' ∧ Carries xs L' (⟨d, p, u⟩ :: ⟨d, b, v⟩ :: fs) t := by
  obtain ⟨hrep, rfl⟩ := h
  have hjoin : L.Represents (fill fs (join d p t (join d b u v))) := hrep
  obtain ⟨L', hL', hrot⟩ := rotate_rotated hjoin.rotatable
  exact ⟨L', hL', hrot.represents hjoin, inorder_fill_congr (inorder_rotated d p b t u v)⟩

/-- The inner child of the sibling comes up in its place. -/
theorem rotate_inner_carries {c : ι} {u₁ u₂ : BinaryTree ι}
    (h : Carries xs L (⟨d, p, join d b (join d c u₁ u₂) v⟩ :: fs) t) :
    ∃ L', rotate d.other b L = some L' ∧
      Carries xs L' (⟨d, p, join d c u₁ (join d b u₂ v)⟩ :: fs) t := by
  have hflip : Carries xs L (⟨d.other, b, join d.other c u₂ u₁⟩ :: ⟨d.other, p, t⟩ :: fs) v := by
    simpa only [Carries, fill_cons, Frame.attach, join_other] using h
  obtain ⟨L', hL', hnew⟩ := rotate_carries hflip
  refine ⟨L', hL', ?_⟩
  simpa only [Carries, fill_cons, Frame.attach, join_other] using hnew

theorem blackenSibling_black (hb : N.red b = false) :
    blackenSibling d p b N = some (b, N) := by
  rw [blackenSibling, if_neg (by rw [hb]; decide)]
  rfl

theorem blackenSibling_red (h : Carries xs N.toLinks (⟨d, p, join d b u v⟩ :: fs) t)
    (hb : N.red b = true) (hu : u ≠ .nil) : ∃ c L', rootOf u = some c ∧
      blackenSibling d p b N =
        some (c, ((N.setType b .black).setType p .red).withLinks L') ∧
      Carries xs L' (⟨d, p, u⟩ :: ⟨d, b, v⟩ :: fs) t := by
  obtain ⟨L', hL', hnew⟩ := rotate_carries h
  obtain ⟨c, u₁, u₂, rfl⟩ := exists_join d hu
  have hc : L'.child d.other p = some c := (hnew.1.child_eq.2).trans rootOf_join
  refine ⟨c, L', rootOf_join, ?_, hnew⟩
  rw [blackenSibling, if_pos hb]
  simp [Nodes.relink, hL', hc]

omit [DecidableEq ι] in
theorem Carries.child_sibling (h : Carries xs N.toLinks (⟨d, p, join d b u v⟩ :: fs) t) :
    N.child d.other p = some b ∧ N.child d b = rootOf u ∧ N.child d.other b = rootOf v := by
  have hsib : N.toLinks.Represents (fill (⟨d.other, p, t⟩ :: fs) (join d b u v)) := by
    simpa only [fill_cons, Frame.attach, join_other] using h.1
  exact ⟨h.1.child_eq.2.trans rootOf_join, hsib.child_join⟩

theorem reddenOuter_red {a : ι} (houter : N.child d.other b = some a) (ha : N.red a = true) :
    reddenOuter d p b N = some (b, N) := by
  simp [reddenOuter, houter, ha]

theorem reddenOuter_black {a c : ι} {u₁ u₂ : BinaryTree ι}
    (h : Carries xs N.toLinks (⟨d, p, join d b (join d c u₁ u₂) v⟩ :: fs) t)
    (houter : N.child d.other b = some a) (ha : N.red a = false) :
    ∃ N', reddenOuter d p b N = some (c, N') ∧
      N'.red = ((N.setType c .black).setType b .red).red ∧
      Carries xs N'.toLinks (⟨d, p, join d c u₁ (join d b u₂ v)⟩ :: fs) t := by
  have hinner : N.child d b = some c := h.child_sibling.2.1.trans rootOf_join
  obtain ⟨L', hL', hnew⟩ := rotate_inner_carries h
  have hc : L'.child d.other p = some c := hnew.1.child_eq.2.trans rootOf_join
  refine ⟨((N.setType c .black).setType b .red).withLinks L', ?_, rfl, hnew⟩
  simp [reddenOuter, houter, ha, hinner, Nodes.relink, hL', hc]

theorem reddenOuter_carries (h : Carries xs N.toLinks (⟨d, p, join d b u v⟩ :: fs) t)
    (hv : v ≠ .nil) (hu : RootRed N.red v ∨ u ≠ .nil) : ∃ c N' u' v',
      reddenOuter d p b N = some (c, N') ∧ v' ≠ .nil ∧
      Carries xs N'.toLinks (⟨d, p, join d c u' v'⟩ :: fs) t := by
  obtain ⟨a, v₁, v₂, rfl⟩ := exists_join d hv
  have houter : N.child d.other b = some a := h.child_sibling.2.2.trans rootOf_join
  rw [rootRed_join] at hu
  cases ha : N.red a with
  | true => exact ⟨b, N, u, _, reddenOuter_red houter ha, hv, h⟩
  | false =>
    obtain ⟨c, u₁, u₂, rfl⟩ := exists_join d (hu.resolve_left (by simp [ha]))
    obtain ⟨N', hredden, -, hnew⟩ := reddenOuter_black h houter ha
    exact ⟨c, N', _, _, hredden, join_ne_nil, hnew⟩

theorem borrow_carries {a : ι} (h : Carries xs N.toLinks (⟨d, p, join d b u v⟩ :: fs) t)
    (hv : rootOf v = some a) : ∃ N', borrow d p b N = some N' ∧
      N'.red = (((N.setType b (N.type p)).setType p .black).setType a .black).red ∧
      Carries xs N'.toLinks (⟨d, p, u⟩ :: ⟨d, b, v⟩ :: fs) t := by
  have houter := h.child_sibling.2.2.trans hv
  obtain ⟨L', hL', hnew⟩ := rotate_carries h
  refine ⟨(((N.setType b (N.type p)).setType p .black).setType a .black).withLinks L', ?_, rfl, hnew⟩
  simp [borrow, houter, Nodes.relink, hL']

end Steps

section Turn

/-- The test that the code makes on the sibling of a node on side `d`. -/
def bothBlack : Side → ι → Nodes ι → Option Bool
  | .left => bothBlackRight
  | .right => bothBlackLeft

omit [DecidableEq ι] in
theorem noneOrBlack_rootOf (u : BinaryTree ι) :
    noneOrBlack N (rootOf u) = false ↔ RootRed N.red u := by
  cases u <;> simp [noneOrBlack, rootOf]

omit [DecidableEq ι] in
/-- The test has an answer, unless there is an inner child alone. Where it finds a red child there
is one. -/
theorem bothBlack_answers (hu : N.child d b = rootOf u) (hv : N.child d.other b = rootOf v)
    (hout : u ≠ .nil → v ≠ .nil) : ∃ r, bothBlack d b N = some r ∧
      (r = false → RootRed N.red v ∨ RootRed N.red u) := by
  cases d with
  | left =>
    refine ⟨noneOrBlack N (rootOf u) && noneOrBlack N (rootOf v), ?_, ?_⟩
    · rw [← hu, ← hv]
      rfl
    · rw [Bool.and_eq_false_iff, noneOrBlack_rootOf, noneOrBlack_rootOf]
      exact Or.symm
  | right =>
    have hv' : N.child .left b = rootOf v := hv
    simp only [bothBlack, bothBlackLeft, hv', hu]
    cases hblack : noneOrBlack N (rootOf v) with
    | false => exact ⟨false, rfl, fun _ => Or.inl ((noneOrBlack_rootOf v).mp hblack)⟩
    | true =>
      cases u with
      | nil => exact ⟨true, rfl, nofun⟩
      | node c u₁ u₂ =>
        obtain ⟨a, v₁, v₂, rfl⟩ := exists_join .left (hout nofun)
        rw [rootOf_join] at hblack ⊢
        exact ⟨true, by simpa [noneOrBlack, rootOf] using hblack, nofun⟩

/-- With a red inner child alone the code follows a null pointer: on the right it does so in the
test. -/
theorem fixSide_crash {c : ι} {N' : Nodes ι} (hb : N.child d.other p = some b)
    (hblacken : blackenSibling d p b N = some (c, N')) (hu : N'.child d c = rootOf u)
    (hv : N'.child d.other c = none) (hred : RootRed N'.red u) :
    fixSide d (bothBlack d) p node N = none := by
  have houter : reddenOuter d p c N' = none := by
    rw [reddenOuter, hv]
    rfl
  have htest : bothBlack d c N' = none ∨ bothBlack d c N' = some false := by
    cases d with
    | left =>
      right
      simp [bothBlack, bothBlackRight, hu, (noneOrBlack_rootOf u).mpr hred]
    | right =>
      left
      have hv' : N'.child .left c = none := hv
      obtain ⟨a, ha, -⟩ := hred
      rw [Option.mem_def] at ha
      simp [bothBlack, bothBlackLeft, hu, hv', ha, noneOrBlack]
  simp only [fixSide, hb, hblacken, Option.bind_eq_bind, Option.bind_some]
  rcases htest with htest | htest <;> simp [htest, houter]

/-- Otherwise the loop goes on above, or it is done. -/
theorem fixSide_settles (node : ι) {b₀ : ι} {N' : Nodes ι} (hb : N.child d.other p = some b₀)
    (hblacken : blackenSibling d p b₀ N = some (b, N'))
    (h : Carries xs N'.toLinks (⟨d, p, join d b u v⟩ :: fs) t) (hout : u ≠ .nil → v ≠ .nil) :
    fixSide d (bothBlack d) p node N = some (.inl (p, N'.parent p, N'.setType b .red)) ∨
      ∃ N'' gs, fixSide d (bothBlack d) p node N = some (.inr (node, N'')) ∧
        Carries xs N''.toLinks gs t := by
  obtain ⟨-, hu, hv⟩ := h.child_sibling
  obtain ⟨r, htest, hfound⟩ := bothBlack_answers hu hv hout
  simp only [fixSide, hb, hblacken, Option.bind_eq_bind, Option.bind_some, htest]
  cases r with
  | true => exact Or.inl rfl
  | false =>
    right
    have hor : RootRed N'.red v ∨ u ≠ .nil := by
      refine (hfound rfl).imp_right ?_
      rintro hred rfl
      exact not_rootRed_nil hred
    have hvn : v ≠ .nil := by
      rcases hor with hred | hun
      · rintro rfl
        exact not_rootRed_nil hred
      · exact hout hun
    obtain ⟨c, N₁, u', v', hredden, hv', hcar⟩ := reddenOuter_carries h hvn hor
    obtain ⟨a, v₁, v₂, rfl⟩ := exists_join d hv'
    obtain ⟨N₂, hborrow, -, hcar'⟩ := borrow_carries hcar rootOf_join
    refine ⟨N₂, _, ?_, hcar'⟩
    simp [hredden, hborrow]

end Turn

section Loop

/-- The colours with the node `a`, which is to go, counting for nothing. -/
def ghost (a : ι) (red : ι → Bool) : ι → Bool := Function.update red a true

omit [DecidableEq ι] in
/-- The black sibling that the first turn comes to has an inner child alone. -/
def lopsided (red : ι → Bool) (f : Frame ι) : Bool :=
  let s := if (rootOf f.sibling).any red then sub f.side f.sibling else f.sibling
  (rootOf (sub f.side s)).isSome && (rootOf (sub f.side.other s)).isNone

omit [DecidableEq ι] in
theorem lopsided_black {red : ι → Bool} (hb : red b = false) :
    lopsided red ⟨d, p, join d b u v⟩ = ((rootOf u).isSome && (rootOf v).isNone) := by
  simp [lopsided, rootOf_join, hb]

omit [DecidableEq ι] in
theorem lopsided_red {red : ι → Bool} {c : ι} {u₁ u₂ : BinaryTree ι} (hb : red b = true) :
    lopsided red ⟨d, p, join d b (join d c u₁ u₂) v⟩ =
      ((rootOf u₁).isSome && (rootOf u₂).isNone) := by
  simp [lopsided, rootOf_join, hb]

/-- The loop works on the node at the end of a path of less than `m` steps; the leaf `a` is below
it, and without the leaf the tree there is short of a black node. -/
structure Fixing (a : ι) (xs : List ι) (m : ℕ) (s : ι × Option ι × Nodes ι) : Prop where
  zipper : ∃ fs gs, Carries xs s.2.2.toLinks fs (fill gs (.node a .nil .nil)) ∧
    rootOf (fill gs (.node a .nil .nil)) = some s.1 ∧ s.2.1 = above fs ∧
    (s.2.2.red s.1 = false → fs.length < m ∧
      ∃ n, Short (ghost a s.2.2.red) fs (fill gs (.node a .nil .nil)) n ∧
        (n = 0 → ∀ f ∈ fs.head?, lopsided s.2.2.red f = false))

variable {a : ι} {gs : List (Frame ι)} {n k : ℕ}

theorem ghost_of_ne {red : ι → Bool} {x : ι} (h : x ≠ a) : ghost a red x = red x :=
  Function.update_of_ne h ..

omit [DecidableEq ι] in
/-- The leaf is apart from the path that ends above it. -/
theorem Carries.ne_leaf {x : ι} (h : Carries xs L fs (fill gs (.node a .nil .nil)))
    (hx : x ∈ pathNodes fs) : x ≠ a := by
  rintro rfl
  refine (nodup_fill.mp h.1.nodup).2.2 ?_ hx
  exact mem_inorder_fill.mpr (Or.inl (by simp))

omit [DecidableEq ι] in
theorem Carries.sibling_ne_leaf
    (h : Carries xs L (⟨d, p, join d b u v⟩ :: fs) (fill gs (.node a .nil .nil))) : b ≠ a := by
  apply h.ne_leaf
  exact mem_pathNodes_cons.mpr (Or.inr (Or.inl mem_join_self))

theorem fixing_up {c : ι}
    (h : Carries xs N.toLinks (⟨d, p, join d c u v⟩ :: fs) (fill gs (.node a .nil .nil)))
    (hshort : Short (ghost a N.red) (⟨d, p, join d c u v⟩ :: fs) (fill gs (.node a .nil .nil)) n)
    (hc : N.red c = false) (hlen : N.red p = false → fs.length < k) :
    Fixing a xs k (p, N.parent p, N.setType c .red) := by
  have hca : c ≠ a := h.sibling_ne_leaf
  have hpa : p ≠ a := h.ne_leaf (mem_pathNodes_cons.mpr (Or.inl rfl))
  have hpc : p ≠ c := parent_ne_sibling h.1.nodup
  have hattach : fill (gs ++ [⟨d, p, join d c u v⟩]) (.node a .nil .nil) =
      Frame.attach ⟨d, p, join d c u v⟩ (fill gs (.node a .nil .nil)) := fill_append ..
  have hrep : N.toLinks.Represents (fill fs (Frame.attach ⟨d, p, join d c u v⟩
    (fill gs (.node a .nil .nil)))) := h.1
  refine ⟨fs, gs ++ [⟨d, p, join d c u v⟩], ?_⟩
  rw [hattach]
  refine ⟨h, rootOf_join, hrep.parent_eq rootOf_join, ?_⟩
  intro hred
  have hp : N.red p = false := by simpa [hpc] using hred
  refine ⟨hlen hp, _, hshort.up rfl h.1.nodup ?_ ?_ ?_, ?_⟩
  · exact (ghost_of_ne hca).trans hc
  · rw [ghost_of_ne hca]
    simp
  · intro x hx
    simp [ghost, Function.update_apply, hx]
  · rw [weight_of_black ((ghost_of_ne hpa).trans hp)]
    exact nofun

omit [DecidableEq ι] in
/-- Higher up than at the leaf itself the sibling has an outer child. -/
theorem outer_ne_nil {red : ι → Bool} (hshort : Short red (⟨d, p, join d b u v⟩ :: fs) t n)
    (hb : red b = false) (hlop : n = 0 → ((rootOf u).isSome && (rootOf v).isNone) = false)
    (hu : u ≠ .nil) : v ≠ .nil := by
  rintro rfl
  obtain ⟨m, -, hv, hm⟩ := balanced_join.mp hshort.balancedPath.1
  obtain rfl : m = 0 := hv
  rw [weight_of_black hb] at hm
  obtain ⟨c, u₁, u₂, rfl⟩ := exists_join d hu
  have hflat := hlop (by omega)
  rw [rootOf_join] at hflat
  cases hflat

/-- A turn below a black sibling. -/
theorem fixing_black (node : ι) (h : Carries xs N.toLinks (⟨d, p, join d b u v⟩ :: fs)
      (fill gs (.node a .nil .nil)))
    (hshort : Short (ghost a N.red) (⟨d, p, join d b u v⟩ :: fs) (fill gs (.node a .nil .nil)) n)
    (hb : N.red b = false) (hlop : n = 0 → lopsided N.red ⟨d, p, join d b u v⟩ = false) :
    (∃ s, fixSide d (bothBlack d) p node N = some (.inl s) ∧ Fixing a xs (fs.length + 1) s) ∨
      ∃ N' hs, fixSide d (bothBlack d) p node N = some (.inr (node, N')) ∧
        Carries xs N'.toLinks hs (fill gs (.node a .nil .nil)) := by
  have hsib : N.child d.other p = some b := h.1.child_eq.2.trans rootOf_join
  have hba : b ≠ a := h.sibling_ne_leaf
  rw [lopsided_black hb] at hlop
  have hout := outer_ne_nil hshort ((ghost_of_ne hba).trans hb) hlop
  rcases fixSide_settles node hsib (blackenSibling_black hb) h hout with hup | hdone
  · exact Or.inl ⟨_, hup, fixing_up h hshort hb fun _ => Nat.lt_succ_self _⟩
  · exact Or.inr hdone

/-- A red sibling comes up, and its inner child is the black sibling that the turn goes on with. -/
theorem red_sibling (h : Carries xs N.toLinks (⟨d, p, join d b u v⟩ :: fs)
      (fill gs (.node a .nil .nil)))
    (hshort : Short (ghost a N.red) (⟨d, p, join d b u v⟩ :: fs) (fill gs (.node a .nil .nil)) n)
    (hb : N.red b = true) : ∃ c u₁ u₂ N', u = join d c u₁ u₂ ∧
      blackenSibling d p b N = some (c, N') ∧
      Carries xs N'.toLinks (⟨d, p, u⟩ :: ⟨d, b, v⟩ :: fs) (fill gs (.node a .nil .nil)) ∧
      Short (ghost a N'.red) (⟨d, p, u⟩ :: ⟨d, b, v⟩ :: fs) (fill gs (.node a .nil .nil)) n ∧
      N'.red c = false ∧ N'.red p = true := by
  have hba : b ≠ a := h.sibling_ne_leaf
  have hpa : p ≠ a := h.ne_leaf (mem_pathNodes_cons.mpr (Or.inl rfl))
  have hbp : b ≠ p := (parent_ne_sibling h.1.nodup).symm
  have hu : u ≠ .nil := by
    rintro rfl
    obtain ⟨m, hu, -, hm⟩ := balanced_join.mp hshort.balancedPath.1
    obtain rfl : m = 0 := hu
    rw [weight_of_red ((ghost_of_ne hba).trans hb)] at hm
    omega
  obtain ⟨c, L', hc, hblacken, hcar⟩ := blackenSibling_red h hb hu
  obtain ⟨c', u₁, u₂, rfl⟩ := exists_join d hu
  obtain rfl : c' = c := Option.some.inj (rootOf_join.symm.trans hc)
  let N' := ((N.setType b .black).setType p .red).withLinks L'
  obtain ⟨hshort', hblack⟩ : Short (ghost a N'.red)
      (⟨d, p, join d c' u₁ u₂⟩ :: ⟨d, b, v⟩ :: fs) (fill gs (.node a .nil .nil)) n ∧
        ¬ RootRed (ghost a N'.red) (join d c' u₁ u₂) := by
    apply hshort.rotate rfl h.1.nodup ((ghost_of_ne hba).trans hb)
    · simp [N', ghost_of_ne hba, hbp]
    · simp [N', ghost_of_ne hpa]
    · intro x hxb hxp
      have hxp' : x ≠ p := hxp
      simp [N', ghost, Function.update_apply, hxb, hxp']
  have hca : c' ≠ a := hcar.sibling_ne_leaf
  rw [rootRed_join, ghost_of_ne hca, Bool.not_eq_true] at hblack
  exact ⟨c', u₁, u₂, N', rfl, hblacken, hcar, hshort', hblack, by simp [N']⟩

/-- A turn below a red sibling; the one after it is the last. -/
theorem fixing_red (node : ι) (h : Carries xs N.toLinks (⟨d, p, join d b u v⟩ :: fs)
      (fill gs (.node a .nil .nil)))
    (hshort : Short (ghost a N.red) (⟨d, p, join d b u v⟩ :: fs) (fill gs (.node a .nil .nil)) n)
    (hb : N.red b = true) (hlop : n = 0 → lopsided N.red ⟨d, p, join d b u v⟩ = false) :
    (∃ s, fixSide d (bothBlack d) p node N = some (.inl s) ∧ Fixing a xs 0 s) ∨
      ∃ N' hs, fixSide d (bothBlack d) p node N = some (.inr (node, N')) ∧
        Carries xs N'.toLinks hs (fill gs (.node a .nil .nil)) := by
  have hsib : N.child d.other p = some b := h.1.child_eq.2.trans rootOf_join
  obtain ⟨c, u₁, u₂, N', rfl, hblacken, hcar, hshort', hblack, hp⟩ := red_sibling h hshort hb
  have hca : c ≠ a := hcar.sibling_ne_leaf
  rw [lopsided_red hb] at hlop
  have hout := outer_ne_nil hshort' ((ghost_of_ne hca).trans hblack) hlop
  rcases fixSide_settles node hsib hblacken hcar hout with hup | hdone
  · refine Or.inl ⟨_, hup, fixing_up hcar hshort' hblack ?_⟩
    intro hp'
    rw [hp] at hp'
    cases hp'
  · exact Or.inr hdone

theorem fixTurn_eq (h : Carries xs N.toLinks (f :: fs) t) (hroot : rootOf t = some node)
    (hred : N.red node = false) (hnode : N.root ≠ some node) :
    fixTurn (node, some f.id, N) = fixSide f.side (bothBlack f.side) f.id node N := by
  have hgo : ¬ (N.red node = true ∨ N.root = some node) := by simp [hred, hnode]
  simp only [fixTurn, if_neg hgo, Option.bind_eq_bind, Option.bind_some]
  rw [if_congr (h.1.child_eq_iff hroot) rfl rfl]
  cases f.side <;> rfl

/-- The leaf is still there when the loop is done. -/
theorem fixing_turn {m : ℕ} {s : ι × Option ι × Nodes ι} (h : Fixing a xs m s) :
    (∃ s', fixTurn s = some (.inl s') ∧ ∃ k < m, Fixing a xs k s') ∨
      ∃ r, fixTurn s = some (.inr r) ∧ ∃ hs, Carries xs r.2.toLinks hs (.node a .nil .nil) := by
  obtain ⟨node, p, N⟩ := s
  obtain ⟨fs, gs, hcar, hroot, rfl, hshort⟩ := h
  by_cases hend : N.red node = true ∨ N.root = some node
  · refine Or.inr ⟨_, if_pos hend, gs ++ fs, ?_⟩
    simpa only [Carries, fill_append] using hcar
  · rw [not_or, Bool.not_eq_true] at hend
    obtain ⟨hlen, n, hshort, hlop⟩ := hshort hend.1
    cases fs with
    | nil => exact absurd (hcar.1.root_eq.trans hroot) hend.2
    | cons f fs =>
      rw [List.length_cons] at hlen
      replace hlop := fun hn => hlop hn f rfl
      simp only [above_cons, fixTurn_eq hcar hroot hend.1 hend.2]
      obtain ⟨d, p, s⟩ := f
      obtain ⟨b, u, v, rfl⟩ := exists_join d hshort.sibling_ne_nil
      have hdone {N' : Nodes ι} {hs : List (Frame ι)}
          (hcar' : Carries xs N'.toLinks hs (fill gs (.node a .nil .nil))) :
          Carries xs N'.toLinks (gs ++ hs) (.node a .nil .nil) := by
        simpa only [Carries, fill_append] using hcar'
      cases hb : N.red b with
      | false =>
        rcases fixing_black node hcar hshort hb hlop with ⟨s, hs, hfix⟩ | ⟨N', hs, hr, hN'⟩
        · exact Or.inl ⟨s, hs, _, hlen, hfix⟩
        · exact Or.inr ⟨_, hr, _, hdone hN'⟩
      | true =>
        rcases fixing_red node hcar hshort hb hlop with ⟨s, hs, hfix⟩ | ⟨N', hs, hr, hN'⟩
        · exact Or.inl ⟨s, hs, 0, by omega, hfix⟩
        · exact Or.inr ⟨_, hr, _, hdone hN'⟩

omit [DecidableEq ι] in
/-- Next to the leaf itself an inner child is red. -/
theorem inner_red {red : ι → Bool} (hshort : Short red (⟨d, p, join d b u v⟩ :: fs) t 0)
    (hb : red b = false) (hu : u ≠ .nil) : RootRed red u := by
  obtain ⟨m, hbal, -, hm⟩ := balanced_join.mp hshort.balancedPath.1
  rw [weight_of_black hb] at hm
  obtain rfl : m = 0 := by omega
  obtain ⟨c, u₁, u₂, rfl⟩ := exists_join d hu
  obtain ⟨k, -, -, hk⟩ := balanced_join.mp hbal
  rw [rootRed_join]
  by_contra hc
  rw [weight_of_black (by simpa using hc)] at hk
  omega

theorem rootRed_of_ghost {red : ι → Bool} (ha : a ∉ inorder u) (h : RootRed (ghost a red) u) :
    RootRed red u := by
  obtain ⟨c, hc, hred⟩ := h
  rw [ghost_of_ne (by rintro rfl; exact ha (rootOf_mem hc))] at hred
  exact ⟨c, hc, hred⟩

theorem fixSide_inner (node : ι) {b₀ : ι} {N' : Nodes ι} (hsib : N.child d.other p = some b₀)
    (hblacken : blackenSibling d p b₀ N = some (b, N'))
    (h : Carries xs N'.toLinks (⟨d, p, join d b u v⟩ :: fs) (fill gs (.node a .nil .nil)))
    (hshort : Short (ghost a N'.red) (⟨d, p, join d b u v⟩ :: fs) (fill gs (.node a .nil .nil)) 0)
    (hb : N'.red b = false) (hlop : ((rootOf u).isSome && (rootOf v).isNone) = true) :
    fixSide d (bothBlack d) p node N = none := by
  obtain ⟨-, hu, hv⟩ := h.child_sibling
  rw [Bool.and_eq_true, Option.isNone_iff_eq_none] at hlop
  rw [hlop.2] at hv
  have hmem {x : ι} (hx : x ∈ inorder (join d b u v)) : x ≠ a :=
    h.ne_leaf (mem_pathNodes_cons.mpr (Or.inr (Or.inl hx)))
  have hba : b ≠ a := hmem mem_join_self
  have hua : a ∉ inorder u := fun hx => hmem (mem_inorder_join.mpr (Or.inr (Or.inl hx))) rfl
  apply fixSide_crash hsib hblacken hu hv
  apply rootRed_of_ghost hua
  apply inner_red hshort ((ghost_of_ne hba).trans hb)
  rintro rfl
  cases hlop.1

/-- The first turn below a parent with a lopsided child on the other side. -/
theorem fixSide_lopsided (node : ι)
    (h : Carries xs N.toLinks (f :: fs) (fill gs (.node a .nil .nil)))
    (hshort : Short (ghost a N.red) (f :: fs) (fill gs (.node a .nil .nil)) 0)
    (hlop : lopsided N.red f = true) : fixSide f.side (bothBlack f.side) f.id node N = none := by
  obtain ⟨d, p, s⟩ := f
  obtain ⟨b, u, v, rfl⟩ := exists_join d hshort.sibling_ne_nil
  have hsib : N.child d.other p = some b := h.1.child_eq.2.trans rootOf_join
  cases hb : N.red b with
  | false =>
    rw [lopsided_black hb] at hlop
    exact fixSide_inner node hsib (blackenSibling_black hb) h hshort hb hlop
  | true =>
    obtain ⟨c, u₁, u₂, N', rfl, hblacken, hcar, hshort', hblack, -⟩ := red_sibling h hshort hb
    rw [lopsided_red hb] at hlop
    exact fixSide_inner node hsib hblacken hcar hshort' hblack hlop

end Loop

end MgRaffle.RbTree
