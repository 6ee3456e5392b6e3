import MgRaffle.RbTree.Fixup

namespace MgRaffle.RbTree

open LinkedTree

variable {ι : Type*} [DecidableEq ι]

/-- The tree that the loop of the deletion leaves: the colours, and the path to the subtree that is
short of a black node. -/
structure Mended (ι : Type*) where
  red : ι → Bool
  path : List (Frame ι)

section Functional

variable (red : ι → Bool) (node : ι) (d : Side) (p b : ι)

omit [DecidableEq ι] in
def rootIsRed (t : BinaryTree ι) : Bool := (rootOf t).any red

omit [DecidableEq ι] in
/-- The test for two black children. The code makes it in another way on the left sibling, whose
outer child it asks for its colour twice. -/
def blackTest (inner outer : BinaryTree ι) : Option Bool :=
  match d with
  | .left => some (!rootIsRed red inner && !rootIsRed red outer)
  | .right =>
    if rootIsRed red outer then some false
    else match inner, outer with
      | .nil, _ => some true
      | _, .nil => none
      | _, _ => some true

/-- The colours once the sibling `b` has taken the place of `p`. -/
def lentRed (a : ι) : ι → Bool :=
  let red := Function.update (Function.update red b (red p)) p false
  Function.update (Function.update red a false) node false

/-- The sibling `b` with a red child comes up. -/
def lend (inner outer : BinaryTree ι) (fs : List (Frame ι)) : Option (Mended ι) :=
  match outer with
  | .nil => none
  | .node a _ _ =>
    if red a then some ⟨lentRed red node p b a, ⟨d, p, inner⟩ :: ⟨d, b, outer⟩ :: fs⟩
    else match inner with
      | .nil => none
      | .node c _ _ =>
        some ⟨lentRed (Function.update (Function.update red c false) b true) node p c b,
          ⟨d, p, sub d inner⟩ :: ⟨d, c, join d b (sub d.other inner) outer⟩ :: fs⟩

/-- The turn for the black sibling `s`; `up` is how it goes on above with new colours. -/
def settle (s : BinaryTree ι) (fs : List (Frame ι)) (up : (ι → Bool) → Option (Mended ι)) :
    Option (Mended ι) :=
  match rootOf s with
  | none => none
  | some b =>
    match blackTest red d (sub d s) (sub d.other s) with
    | none => none
    | some true => (up (Function.update red b true)).map fun m => ⟨m.red, ⟨d, p, s⟩ :: m.path⟩
    | some false => lend red node d p b (sub d s) (sub d.other s) fs

end Functional

/-- The loop of the deletion on trees, from the root `node` of the subtree at the end of a path;
there is no result where the code follows a null pointer. -/
def mend : (ι → Bool) → ι → List (Frame ι) → Option (Mended ι)
  | red, node, [] => some ⟨Function.update red node false, []⟩
  | red, node, f :: fs =>
    if red node then some ⟨Function.update red node false, f :: fs⟩
    else match rootOf f.sibling with
      | none => none
      | some b =>
        if red b then
          let red := Function.update (Function.update red b false) f.id true
          let gs := ⟨f.side, b, sub f.side.other f.sibling⟩ :: fs
          settle red node f.side f.id (sub f.side f.sibling) gs fun red =>
            some ⟨Function.update red f.id false, gs⟩
        else settle red node f.side f.id f.sibling fs fun red => mend red f.id fs

section Refinement

variable {xs : List ι} {L : Links ι} {N : Nodes ι} {d : Side} {p b node : ι}
  {t u v : BinaryTree ι} {f : Frame ι} {fs : List (Frame ι)}

theorem setType_red_eq (N : Nodes ι) (a : ι) (c : RBNodeType) :
    (N.setType a c).red = Function.update N.red a (decide (c = .red)) := by
  funext x
  rw [Nodes.setType_red, Function.update_apply]

omit [DecidableEq ι] in
theorem noneOrBlack_eq (u : BinaryTree ι) : noneOrBlack N (rootOf u) = !rootIsRed N.red u := by
  cases u <;> rfl

omit [DecidableEq ι] in
theorem bothBlack_eq (hu : N.child d b = rootOf u) (hv : N.child d.other b = rootOf v) :
    bothBlack d b N = blackTest N.red d u v := by
  cases d with
  | left =>
    have hv' : N.child .right b = rootOf v := hv
    simp only [bothBlack, bothBlackRight, blackTest, hu, hv', noneOrBlack_eq]
  | right =>
    have hv' : N.child .left b = rootOf v := hv
    simp only [bothBlack, bothBlackLeft, blackTest, hu, hv', noneOrBlack_eq]
    cases hred : rootIsRed N.red v with
    | true => rfl
    | false =>
      cases u with
      | nil => rfl
      | node c u₁ u₂ =>
        cases v with
        | nil => rfl
        | node a v₁ v₂ =>
          have ha : N.red a = false := hred
          simp [rootOf, ha]

theorem lentRed_eq (a : ι) (node : ι) :
    ((((N.setType b (N.type p)).setType p .black).setType a .black).setType node .black).red =
      lentRed N.red node p b a := by
  simp only [setType_red_eq, reduceCtorEq, decide_false]
  rfl

theorem borrow_refines {a : ι} (node : ι)
    (h : Carries xs N.toLinks (⟨d, p, join d b u v⟩ :: fs) t)
    (hv : rootOf v = some a) : ∃ N', borrow d p b N = some N' ∧
      (N'.setType node .black).red = lentRed N.red node p b a ∧
      Carries xs N'.toLinks (⟨d, p, u⟩ :: ⟨d, b, v⟩ :: fs) t := by
  obtain ⟨N', hborrow, hred, hnew⟩ := borrow_carries h hv
  refine ⟨N', hborrow, ?_, hnew⟩
  rw [← lentRed_eq, setType_red_eq, setType_red_eq, hred]

omit [DecidableEq ι] in
theorem rootOf_eq_of_join {c e : ι} {l r : BinaryTree ι} (h : .node c l r = join d e u v) : e = c := by
  have hroot := congrArg rootOf h
  rw [rootOf_join] at hroot
  exact (Option.some.inj hroot).symm

/-- What the loop ends with agrees with the outcome on trees, above the subtree `t`. -/
def Agrees (xs : List ι) (t : BinaryTree ι) (o : Option (Mended ι)) (r : Option (ι × Nodes ι)) :
    Prop :=
  match o with
  | none => r = none
  | some m => ∃ q, r = some q ∧ (q.2.setType q.1 .black).red = m.red ∧
      Carries xs q.2.toLinks m.path t

theorem Agrees.up {o : Option (Mended ι)} {r : Option (ι × Nodes ι)}
    (h : Agrees xs (f.attach t) o r) :
    Agrees xs t (o.map fun m => ⟨m.red, f :: m.path⟩) r := by
  cases o with
  | none => exact h
  | some m => exact h

theorem lend_red {a : ι} {l r : BinaryTree ι} {red : ι → Bool} (ha : red a = true) :
    lend red node d p b u (.node a l r) fs =
      some ⟨lentRed red node p b a, ⟨d, p, u⟩ :: ⟨d, b, .node a l r⟩ :: fs⟩ := if_pos ha

theorem lend_black {a c : ι} {l r l' r' : BinaryTree ι} {red : ι → Bool} (ha : ¬ red a = true) :
    lend red node d p b (.node c l' r') (.node a l r) fs =
      some ⟨lentRed (Function.update (Function.update red c false) b true) node p c b,
        ⟨d, p, sub d (.node c l' r')⟩ ::
          ⟨d, c, join d b (sub d.other (.node c l' r')) (.node a l r)⟩ :: fs⟩ := if_neg ha

theorem lend_refines (node : ι) (h : Carries xs N.toLinks (⟨d, p, join d b u v⟩ :: fs) t) :
    Agrees xs t (lend N.red node d p b u v fs)
      (((reddenOuter d p b N).bind fun q => borrow d p q.1 q.2).map fun N => (node, N)) := by
  have hchild := h.child_sibling
  cases v with
  | nil => simp [Agrees, lend, reddenOuter, hchild.2.2, rootOf]
  | node a v₁ v₂ =>
    have houter : N.child d.other b = some a := hchild.2.2
    cases ha : N.red a with
    | true =>
      obtain ⟨N', hborrow, hcol, hcar⟩ := borrow_refines node h rfl
      rw [reddenOuter_red houter ha, Option.bind_some, lend_red ha, hborrow]
      exact ⟨(node, N'), rfl, hcol, hcar⟩
    | false =>
      cases u with
      | nil => simp [Agrees, lend, reddenOuter, hchild.2.1, houter, rootOf, ha]
      | node c l r =>
        obtain ⟨c', u₁, u₂, hu⟩ := exists_join d (t := .node c l r) (by simp)
        have hc := rootOf_eq_of_join hu
        rw [hc] at hu
        rw [hu] at h
        obtain ⟨N₁, hredden, hcol₁, hcar⟩ := reddenOuter_black h houter ha
        obtain ⟨N', hborrow, hcol, hcar'⟩ := borrow_refines node hcar rootOf_join
        rw [hredden, Option.bind_some, lend_black (Bool.eq_false_iff.mp ha), hborrow]
        refine ⟨(node, N'), rfl, ?_, ?_⟩
        · rw [hcol, hcol₁, setType_red_eq, setType_red_eq]
          rfl
        · rw [hu, (sub_join d c u₁ u₂).1, (sub_join d c u₁ u₂).2]
          exact hcar'

/-- The turn that comes to the black sibling `b`. Where it moves the node up, the rest of the loop is
as `up` has it. -/
theorem settle_refines {b₀ : ι} {N₀ : Nodes ι} {up : (ι → Bool) → Option (Mended ι)} {n : ℕ}
    (h : Carries xs N.toLinks (⟨d, p, join d b u v⟩ :: fs) t) (hsib : N₀.child d.other p = some b₀)
    (hblacken : blackenSibling d p b₀ N₀ = some (b, N))
    (hturn : fixTurn (node, some p, N₀) = fixSide d (bothBlack d) p node N₀)
    (hup : ∃ r, Looping.outcome fixTurn n (p, N.parent p, N.setType b .red) = some r ∧
      Agrees xs (join d p t (join d b u v)) (up (Function.update N.red b true)) r) :
    ∃ r, Looping.outcome fixTurn (n + 1) (node, some p, N₀) = some r ∧
      Agrees xs t (settle N.red node d p (join d b u v) fs up) r := by
  have hchild := h.child_sibling
  have htest := bothBlack_eq hchild.2.1 hchild.2.2
  have hsub := sub_join d b u v
  unfold settle
  simp only [rootOf_join, hsub.1, hsub.2]
  have hside : fixSide d (bothBlack d) p node N₀ = (blackTest N.red d u v).bind fun
      | true => some (.inl (p, N.parent p, N.setType b .red))
      | false => (((reddenOuter d p b N).bind fun q => borrow d p q.1 q.2).map
          fun N => (node, N)).map Sum.inr := by
    simp only [fixSide, hsib, hblacken, Option.bind_eq_bind, Option.bind_some, htest]
    cases blackTest N.red d u v with
    | none => rfl
    | some r =>
      cases r with
      | true => rfl
      | false =>
        cases hredden : reddenOuter d p b N with
        | none => simp
        | some q => cases hborrow : borrow d p q.1 q.2 <;> simp [hborrow]
  cases hbt : blackTest N.red d u v with
  | none =>
    rw [hbt, Option.bind_none] at hside
    exact ⟨none, Looping.outcome_none (hturn.trans hside), rfl⟩
  | some r =>
    rw [hbt, Option.bind_some] at hside
    cases r with
    | true =>
      obtain ⟨r, hr, hagree⟩ := hup
      refine ⟨r, ?_, hagree.up⟩
      rw [Looping.outcome_inl (hturn.trans hside), hr]
    | false =>
      have hlend := lend_refines node h
      cases hr : ((reddenOuter d p b N).bind fun q => borrow d p q.1 q.2).map fun N => (node, N) with
      | none =>
        rw [hr] at hside hlend
        exact ⟨none, Looping.outcome_none (hturn.trans hside), hlend⟩
      | some q =>
        rw [hr] at hside hlend
        exact ⟨some q, Looping.outcome_inr (hturn.trans hside), hlend⟩

theorem mend_red {red : ι → Bool} (h : red node = true) (fs : List (Frame ι)) :
    mend red node fs = some ⟨Function.update red node false, fs⟩ := by
  cases fs with
  | nil => rfl
  | cons f fs => exact if_pos h

theorem mend_black {red : ι → Bool} (h : red node = false) (hb : red b = false) :
    mend red node (⟨d, p, join d b u v⟩ :: fs) =
      settle red node d p (join d b u v) fs fun red => mend red p fs := by
  simp [mend, h, rootOf_join, hb]

theorem mend_rotated {red : ι → Bool} (h : red node = false) (hb : red b = true) :
    mend red node (⟨d, p, join d b u v⟩ :: fs) =
      settle (Function.update (Function.update red b false) p true) node d p u (⟨d, b, v⟩ :: fs)
        fun red => some ⟨Function.update red p false, ⟨d, b, v⟩ :: fs⟩ := by
  simp [mend, h, rootOf_join, hb, (sub_join d b u v).1, (sub_join d b u v).2]

/-- The loop ends at a red node, and at the root. -/
theorem outcome_exit (n : ℕ) (hend : N.red node = true ∨ N.root = some node) (p : Option ι) :
    Looping.outcome fixTurn (n + 1) (node, p, N) = some (some (node, N)) :=
  Looping.outcome_inr (if_pos hend)

/-- The code follows a null pointer where there is no sibling, and no inner child of a red one. -/
theorem fixSide_none (node : ι) (bothBlack : ι → Nodes ι → Option Bool)
    (h : Carries xs N.toLinks (⟨d, p, u⟩ :: fs) t)
    (hnil : u = .nil ∨ ∃ b v, u = join d b .nil v ∧ N.red b = true) :
    fixSide d bothBlack p node N = none := by
  cases hnil with
  | inl hnil =>
    have hsib : N.child d.other p = none := by
      rw [h.1.child_eq.2, hnil]
      rfl
    simp [fixSide, hsib]
  | inr hred =>
    obtain ⟨b, v, hu, hb⟩ := hred
    rw [hu] at h
    have hsib := h.child_sibling.1
    obtain ⟨L', hL', hcar⟩ := rotate_carries h
    have hinner : L'.child d.other p = none := hcar.1.child_eq.2
    have hblacken : blackenSibling d p b N = none := by
      simp [blackenSibling, hb, Nodes.relink, hL', hinner]
    simp [fixSide, hsib, hblacken]

/-- Below a red sibling the loop takes this turn and at most one more. -/
theorem rotated_refines {n : ℕ} (h : Carries xs N.toLinks (⟨d, p, join d b u v⟩ :: fs) t)
    (hred : N.red node = false) (hb : N.red b = true)
    (hturn : fixTurn (node, some p, N) = fixSide d (bothBlack d) p node N) :
    ∃ r, Looping.outcome fixTurn (n + 2) (node, some p, N) = some r ∧
      Agrees xs t (mend N.red node (⟨d, p, join d b u v⟩ :: fs)) r := by
  rw [mend_rotated hred hb]
  cases u with
  | nil =>
    have hnone := fixSide_none node (bothBlack d) h (Or.inr ⟨b, v, rfl, hb⟩)
    exact ⟨none, Looping.outcome_none (hturn.trans hnone), rfl⟩
  | node c l r =>
    have hsib := h.child_sibling.1
    obtain ⟨c', L', hc, hblacken, hcar⟩ := blackenSibling_red h hb nofun
    obtain ⟨c₁, u₁, u₂, hu⟩ := exists_join d (t := .node c l r) nofun
    rw [hu, rootOf_join, Option.some.injEq] at hc
    rw [hc] at hu
    rw [hu] at hcar ⊢
    let N' := ((N.setType b .black).setType p .red).withLinks L'
    have hcol : N'.red = Function.update (Function.update N.red b false) p true := by
      simp only [N', Nodes.withLinks_red, setType_red_eq]
      rfl
    rw [← hcol]
    have hcar' : Carries xs N'.toLinks (⟨d, p, join d c' u₁ u₂⟩ :: ⟨d, b, v⟩ :: fs) t := hcar
    apply settle_refines hcar' hsib hblacken hturn
    have hpc : p ≠ c' := parent_ne_sibling hcar'.1.nodup
    have hp : (N'.setType c' .red).red p = true := by simp [N', hpc]
    refine ⟨some (p, N'.setType c' .red), outcome_exit _ (Or.inl hp) _, _, rfl, ?_, hcar'⟩
    simp only [setType_red_eq]
    rfl

/-- The loop on pointers agrees with the loop on trees: it takes a turn for each step of the path at
most, and one more. -/
theorem loop_refines (h : Carries xs N.toLinks fs t) (hroot : rootOf t = some node) :
    ∃ r, Looping.outcome fixTurn (fs.length + 1) (node, above fs, N) = some r ∧
      Agrees xs t (mend N.red node fs) r := by
  induction fs generalizing t node N with
  | nil =>
    have hnode : N.root = some node := h.1.root_eq.trans hroot
    refine ⟨some (node, N), outcome_exit 0 (Or.inr hnode) _, (node, N), rfl, ?_, h⟩
    exact setType_red_eq N node .black
  | cons f fs ih =>
    cases hred : N.red node with
    | true =>
      rw [mend_red hred]
      refine ⟨some (node, N), outcome_exit _ (Or.inl hred) _, (node, N), rfl, ?_, h⟩
      exact setType_red_eq N node .black
    | false =>
      have hnode : N.root ≠ some node := h.1.root_ne (rootOf_mem hroot)
      have hturn := fixTurn_eq h hroot hred hnode
      obtain ⟨d, p, s⟩ := f
      cases s with
      | nil =>
        have hnone := fixSide_none node (bothBlack d) h (Or.inl rfl)
        refine ⟨none, Looping.outcome_none (hturn.trans hnone), ?_⟩
        simp [Agrees, mend, hred, rootOf]
      | node b l r =>
        obtain ⟨b', u, v, hs⟩ := exists_join d (t := .node b l r) (by simp)
        rw [hs] at h ⊢
        cases hb : N.red b' with
        | true => exact rotated_refines h hred hb hturn
        | false =>
          rw [mend_black hred hb]
          apply settle_refines h h.child_sibling.1 (blackenSibling_black hb) hturn
          have hcar : Carries xs (N.setType b' .red).toLinks fs (join d p t (join d b' u v)) := h
          have hparent : N.parent p = above fs := hcar.1.parent_eq rootOf_join
          rw [hparent]
          have hcol : (N.setType b' .red).red = Function.update N.red b' true := setType_red_eq ..
          rw [← hcol]
          exact ih hcar rootOf_join

end Refinement

end MgRaffle.RbTree
