import MgRaffle.RbTree.Mend

namespace MgRaffle.RbTree

open LinkedTree

variable {ι : Type*} [DecidableEq ι] {red red' : ι → Bool} {node b p : ι} {d : Side}
  {t u v : BinaryTree ι} {f : Frame ι} {fs : List (Frame ι)} {n : ℕ}

section Levels

variable (ok : Side → BinaryTree ι → Bool) (red)

omit [DecidableEq ι] in
/-- The black sibling of a node: a red one goes out of the way of its inner child. -/
def blackSibling (f : Frame ι) : BinaryTree ι :=
  if rootIsRed red f.sibling then sub f.side f.sibling else f.sibling

omit [DecidableEq ι] in
/-- Asks `ok` about the outer child where the loop comes to a sibling whose inner child alone is red.
The loop goes on to the parent where it and the sibling are black, and both children of it are. -/
def levels : List (Frame ι) → Bool
  | [] => true
  | f :: fs =>
    let s := blackSibling red f
    if rootIsRed red (sub f.side.other s) then true
    else if rootIsRed red (sub f.side s) then ok f.side (sub f.side.other s)
    else rootIsRed red f.sibling || red f.id || levels fs

/-- An inner child alone is red only next to a left node, and an outer child is there, too. -/
def mendable : List (Frame ι) → Bool :=
  levels red fun d outer => d = .left && (rootOf outer).isSome

end Levels

section LevelLemmas

variable {ok : Side → BinaryTree ι → Bool}

omit [DecidableEq ι]

theorem rootIsRed_iff : rootIsRed red t = true ↔ RootRed red t := by
  rw [rootIsRed, Option.any_eq_true]
  rfl

theorem rootIsRed_join (d : Side) (a : ι) (t u : BinaryTree ι) :
    rootIsRed red (join d a t u) = red a := by
  rw [rootIsRed, rootOf_join, Option.any_some]

theorem mem_of_mem_sub {x : ι} (h : x ∈ inorder (sub d t)) : x ∈ inorder t := by
  cases t with
  | nil => exact h
  | node a l r =>
    rw [inorder_node, List.mem_append, List.mem_cons]
    cases d with
    | left => exact Or.inl h
    | right => exact Or.inr (Or.inr h)

theorem rootIsRed_congr (h : ∀ x ∈ inorder t, red' x = red x) :
    rootIsRed red' t = rootIsRed red t := by
  rw [Bool.eq_iff_iff, rootIsRed_iff, rootIsRed_iff]
  exact rootRed_congr h

theorem levels_congr (h : ∀ x ∈ pathNodes fs, red' x = red x) :
    levels red' ok fs = levels red ok fs := by
  induction fs with
  | nil => rfl
  | cons f fs ih =>
    have hsib : ∀ x ∈ inorder f.sibling, red' x = red x := fun x hx =>
      h x (mem_pathNodes_cons.mpr (Or.inr (Or.inl hx)))
    have hblack : blackSibling red' f = blackSibling red f := by
      rw [blackSibling, blackSibling, rootIsRed_congr hsib]
    have hs : ∀ x ∈ inorder (blackSibling red f), red' x = red x := by
      intro x hx
      unfold blackSibling at hx
      split_ifs at hx
      · exact hsib x (mem_of_mem_sub hx)
      · exact hsib x hx
    have hid := h f.id (mem_pathNodes_cons.mpr (Or.inl rfl))
    have hfs := ih fun x hx => h x (mem_pathNodes_cons.mpr (Or.inr (Or.inr hx)))
    simp only [levels, hblack, hid, hfs, rootIsRed_congr hsib,
      rootIsRed_congr fun x hx => hs x (mem_of_mem_sub hx)]

theorem levels_black (hb : red b = false) : levels red ok (⟨d, p, join d b u v⟩ :: fs) =
    if rootIsRed red v then true else if rootIsRed red u then ok d v
    else red p || levels red ok fs := by
  have hsub := sub_join d b u v
  simp [levels, blackSibling, rootIsRed_join, hb, hsub.1, hsub.2]

theorem levels_rotated {c : ι} {u₁ u₂ : BinaryTree ι} (hb : red b = true) :
    levels red ok (⟨d, p, join d b (join d c u₁ u₂) v⟩ :: fs) =
      if rootIsRed red u₂ then true else if rootIsRed red u₁ then ok d u₂ else true := by
  have hsub := sub_join d b (join d c u₁ u₂) v
  have hsub' := sub_join d c u₁ u₂
  simp [levels, blackSibling, rootIsRed_join, hb, hsub.1, hsub'.1, hsub'.2]

end LevelLemmas

/-- The whole tree is as the colours of a red-black tree are to be, the one of the root aside. -/
def Good (m : Mended ι) (t : BinaryTree ι) : Prop :=
  Proper m.red (fill m.path t) ∧ ∃ k, Balanced m.red (fill m.path t) k

/-- The subtree with the root `node` passes one black node too few; the root may be red, and then
have a red child. -/
structure Lacking (red : ι → Bool) (node : ι) (fs : List (Frame ι)) (t : BinaryTree ι) (n : ℕ) :
    Prop where
  short : Short red fs t n
  proper : Proper (Function.update red node false) t
  root : rootOf t = some node ∨ t = .nil ∧ red node = false
  apart : node ∉ pathNodes fs
  nodup : (inorder (fill fs t)).Nodup

section Turn

variable {up : (ι → Bool) → Option (Mended ι)}

theorem Lacking.proper_black (h : Lacking red node fs t n) (hnode : red node = false) :
    Proper red t := by
  have hsame : Function.update red node false = red := by
    rw [← hnode, Function.update_eq_self]
  rw [← hsame]
  exact h.proper

/-- The colours that the code leaves are those of `Short.lend`. -/
theorem lentRed_spec {a : ι} (hnode : red node = false) (hbn : b ≠ node) (hba : b ≠ a) (hbp : b ≠ p) :
    lentRed red node p b a b = red p ∧ lentRed red node p b a p = false ∧
      lentRed red node p b a a = false ∧
      ∀ x, x ≠ b → x ≠ p → x ≠ a → lentRed red node p b a x = red x := by
  unfold lentRed
  refine ⟨?_, ?_, ?_, ?_⟩
  · rw [Function.update_of_ne hbn, Function.update_of_ne hba, Function.update_of_ne hbp,
      Function.update_self]
  · simp [Function.update_apply]
  · simp [Function.update_apply]
  · intro x hxb hxp hxa
    by_cases hx : x = node
    · rw [hx, Function.update_self, hnode]
    · rw [Function.update_of_ne hx, Function.update_of_ne hxa, Function.update_of_ne hxp,
        Function.update_of_ne hxb]

theorem lent_good {a : ι} (h : Short red (⟨d, p, join d b u v⟩ :: fs) t n) (ht : Proper red t)
    (hnd : (inorder (fill (⟨d, p, join d b u v⟩ :: fs) t)).Nodup) (hnode : red node = false)
    (hbn : b ≠ node) (hb : red b = false) (ha : rootOf v = some a) (hv : red a = true) :
    Good ⟨lentRed red node p b a, ⟨d, p, u⟩ :: ⟨d, b, v⟩ :: fs⟩ t := by
  have hsib := sibling_apart hnd
  have hpar := nodup_join.mp hsib.1
  have hba : b ≠ a := fun heq => hpar.2.2.2.1 (heq ▸ rootOf_mem ha)
  have hbp : b ≠ p := (parent_ne_sibling hnd).symm
  have hspec := lentRed_spec hnode hbn hba hbp
  apply h.lend ht hnd hb ⟨a, ha, hv⟩ hspec.1 hspec.2.1
  · intro x hx
    rw [ha] at hx
    cases hx
    exact hspec.2.2.1
  · intro x hxb hxp hxa
    apply hspec.2.2.2 x hxb hxp
    intro heq
    exact hxa (heq ▸ ha)

/-- The inner child comes up first. -/
theorem lent_twice_good {c : ι} {u₁ u₂ : BinaryTree ι}
    (h : Short red (⟨d, p, join d b (join d c u₁ u₂) v⟩ :: fs) t n) (ht : Proper red t)
    (hnd : (inorder (fill (⟨d, p, join d b (join d c u₁ u₂) v⟩ :: fs) t)).Nodup)
    (hnode : red node = false) (hbn : b ≠ node) (hcn : c ≠ node) (hb : red b = false)
    (hc : red c = true) (hv : ¬ RootRed red v) :
    Good ⟨lentRed (Function.update (Function.update red c false) b true) node p c b,
      ⟨d, p, u₁⟩ :: ⟨d, c, join d b u₂ v⟩ :: fs⟩ t := by
  have hsib := sibling_apart hnd
  have hbs : b ∈ inorder (join d b (join d c u₁ u₂) v) := mem_join_self
  have hcu : c ∈ inorder (join d c u₁ u₂) := mem_join_self
  have hcs : c ∈ inorder (join d b (join d c u₁ u₂) v) := mem_inorder_join.mpr (Or.inr (Or.inl hcu))
  have hcb : c ≠ b := fun heq => (nodup_join.mp hsib.1).2.2.1 (heq ▸ hcu)
  have hc' : Function.update (Function.update red c false) b true c = false := by
    rw [Function.update_of_ne hcb, Function.update_self]
  have hb' : Function.update (Function.update red c false) b true b = true := Function.update_self ..
  have helse (x : ι) (hxb : x ≠ b) (hxc : x ≠ c) :
      Function.update (Function.update red c false) b true x = red x := by
    rw [Function.update_of_ne hxb, Function.update_of_ne hxc]
  have hshort := h.redden hnd hb hc hv hc' hb' helse
  have hin : inorder (fill (⟨d, p, join d c u₁ (join d b u₂ v)⟩ :: fs) t) =
      inorder (fill (⟨d, p, join d b (join d c u₁ u₂) v⟩ :: fs) t) := by
    rw [fill_cons, fill_cons]
    apply inorder_fill_congr
    rw [inorder_attach, inorder_attach]
    have hrot := inorder_rotated d c b u₁ u₂ v
    unfold Frame.before Frame.after
    cases d <;> simp only [hrot]
  have hproper : Proper (Function.update (Function.update red c false) b true) t := by
    apply ht.congr
    intro x hx
    have hapart := (hsib.2.2 x (Or.inl hx)).2
    exact helse x (fun heq => hapart (heq ▸ hbs)) fun heq => hapart (heq ▸ hcs)
  apply lent_good hshort hproper (hin ▸ hnd) _ hcn hc' rootOf_join hb'
  rw [helse node hbn.symm hcn.symm, hnode]

theorem lend_good (h : Short red (⟨d, p, join d b u v⟩ :: fs) t n) (ht : Proper red t)
    (hnd : (inorder (fill (⟨d, p, join d b u v⟩ :: fs) t)).Nodup) (hnode : red node = false)
    (hapart : node ∉ pathNodes (⟨d, p, join d b u v⟩ :: fs)) (hb : red b = false)
    (hok : rootIsRed red v = true ∨ rootIsRed red u = true ∧ v ≠ .nil) :
    ∃ m, lend red node d p b u v fs = some m ∧ Good m t := by
  have hmem (x : ι) (hx : x ∈ inorder (join d b u v)) : x ≠ node := by
    intro heq
    exact hapart (mem_pathNodes_cons.mpr (Or.inr (Or.inl (heq ▸ hx))))
  have hbn := hmem b mem_join_self
  cases v with
  | nil =>
    cases hok with
    | inl hv => cases hv
    | inr hu => exact absurd rfl hu.2
  | node a v₁ v₂ =>
    by_cases ha : red a = true
    · exact ⟨_, lend_red ha, lent_good h ht hnd hnode hbn hb rfl ha⟩
    · have hu := (hok.resolve_left ha).1
      cases u with
      | nil => cases hu
      | node c l r =>
        obtain ⟨c', u₁, u₂, hjoin⟩ := exists_join d (t := .node c l r) nofun
        have hcc := rootOf_eq_of_join hjoin
        rw [hcc] at hjoin
        have hcn := hmem c (mem_inorder_join.mpr (Or.inr (Or.inl (by simp))))
        refine ⟨_, lend_black ha, ?_⟩
        rw [hjoin] at h hnd ⊢
        rw [(sub_join d c u₁ u₂).1, (sub_join d c u₁ u₂).2]
        exact lent_twice_good h ht hnd hnode hbn hcn hb hu (by rwa [rootRed_node])

omit [DecidableEq ι] in
theorem blackTest_red (hv : rootIsRed red v = true) (d : Side) (u : BinaryTree ι) :
    blackTest red d u v = some false := by
  cases d <;> simp [blackTest, hv]

omit [DecidableEq ι] in
/-- With black heights as they are, both ways to test have an answer where no child is red. -/
theorem blackTest_black (h : Short red (⟨d, p, join d b u v⟩ :: fs) t n)
    (hv : rootIsRed red v = false) (hu : rootIsRed red u = false) (e : Side) :
    blackTest red e u v = some true := by
  cases e with
  | left => simp [blackTest, hu, hv]
  | right =>
    cases u with
    | nil => simp [blackTest, hv]
    | node c u₁ u₂ =>
      cases v with
      | node a v₁ v₂ => simp [blackTest, hv]
      | nil =>
        have hbal : Balanced red (join d b (.node c u₁ u₂) .nil) (n + 1) := h.balancedPath.1
        obtain ⟨m, hum, hm, -⟩ := balanced_join.mp hbal
        have hzero : m = 0 := hm
        rw [hzero] at hum
        have hblack : ¬ RootRed red (.node c u₁ u₂) := by
          rw [← rootIsRed_iff, hu]
          exact Bool.false_ne_true
        cases eq_nil_of_balanced hum hblack

theorem settle_eq (red : ι → Bool) (node : ι) (d : Side) (p b : ι) (u v : BinaryTree ι)
    (fs : List (Frame ι)) (up : (ι → Bool) → Option (Mended ι)) :
    settle red node d p (join d b u v) fs up =
      match blackTest red d u v with
      | none => none
      | some true => (up (Function.update red b true)).map fun m =>
          ⟨m.red, ⟨d, p, join d b u v⟩ :: m.path⟩
      | some false => lend red node d p b u v fs := by
  cases d <;> rfl

/-- A turn for a black sibling: it mends the tree, or leaves it to the turns above. -/
theorem settle_good (h : Short red (⟨d, p, join d b u v⟩ :: fs) t n) (ht : Proper red t)
    (hnd : (inorder (fill (⟨d, p, join d b u v⟩ :: fs) t)).Nodup) (hnode : red node = false)
    (hapart : node ∉ pathNodes (⟨d, p, join d b u v⟩ :: fs)) (hb : red b = false)
    (hok : rootIsRed red v = false → rootIsRed red u = true → d = .left ∧ v ≠ .nil)
    (hup : rootIsRed red v = false → rootIsRed red u = false →
      ∃ m, up (Function.update red b true) = some m ∧ Good m (join d p t (join d b u v))) :
    ∃ m, settle red node d p (join d b u v) fs up = some m ∧ Good m t := by
  rw [settle_eq]
  cases hv : rootIsRed red v with
  | true =>
    rw [blackTest_red hv]
    exact lend_good h ht hnd hnode hapart hb (Or.inl hv)
  | false =>
    cases hu : rootIsRed red u with
    | true =>
      obtain ⟨hd, hvn⟩ := hok hv hu
      have htest : blackTest red d u v = some false := by simp [blackTest, hd, hu]
      rw [htest]
      exact lend_good h ht hnd hnode hapart hb (Or.inr ⟨hu, hvn⟩)
    | false =>
      obtain ⟨m, hm, hgood⟩ := hup hv hu
      rw [blackTest_black h hv hu]
      exact ⟨_, congrArg (Option.map _) hm, hgood⟩

/-- A turn that comes to an inner child alone that is red, and must not, follows a null pointer or
leaves the child below a red sibling. -/
theorem settle_bad {m : Mended ι} (hv : rootIsRed red v = false) (hu : rootIsRed red u = true)
    (hbad : ¬ (d = .left ∧ v ≠ .nil)) (hnds : (inorder (join d b u v)).Nodup)
    (hup : ∀ m ∈ up (Function.update red b true), ∀ x ∈ inorder (join d b u v),
      m.red x = Function.update red b true x)
    (hm : settle red node d p (join d b u v) fs up = some m) : ¬ Proper m.red (fill m.path t) := by
  rw [settle_eq] at hm
  cases v with
  | nil =>
    cases d with
    | left =>
      rw [blackTest, hu] at hm
      cases hm
    | right =>
      cases u with
      | nil => cases hu
      | node c u₁ u₂ => cases hm
  | node a v₁ v₂ =>
    cases d with
    | left => exact absurd ⟨rfl, by simp⟩ hbad
    | right =>
      cases u with
      | nil => cases hu
      | node c u₁ u₂ =>
        have htest : blackTest red .right (.node c u₁ u₂) (.node a v₁ v₂) = some true := by
          simp [blackTest, hv]
        rw [htest] at hm
        obtain ⟨m', hm', heq⟩ := Option.map_eq_some_iff.mp hm
        rw [← heq]
        intro hproper
        have hsame := hup m' hm'
        have hpar := nodup_join.mp hnds
        have hcb : c ≠ b := by
          intro heq
          exact hpar.2.2.1 (heq ▸ by simp)
        have hbred : m'.red b = true := by
          rw [hsame b mem_join_self, Function.update_self]
        have hcred : m'.red c = true := by
          rw [hsame c (mem_inorder_join.mpr (Or.inr (Or.inl (by simp)))), Function.update_of_ne hcb]
          exact hu
        have hfill : Proper m'.red (fill m'.path
            (join .right p t (join .right b (.node c u₁ u₂) (.node a v₁ v₂)))) := hproper
        have hsib := (proper_join.mp (proper_fill.mp hfill).1).2.2
        exact ((proper_join.mp hsib).1 hbred).1 ((rootRed_node c u₁ u₂).mpr hcred)

end Turn

section Loop

variable {m : Mended ι}

theorem Lacking.up (h : Lacking red node (⟨d, p, join d b u v⟩ :: fs) t n)
    (hnode : red node = false) (hb : red b = false) (hv : rootIsRed red v = false)
    (hu : rootIsRed red u = false) :
    Lacking (Function.update red b true) p fs (join d p t (join d b u v)) (n + weight red p) := by
  have hsib := sibling_apart h.nodup
  have hbs : b ∈ inorder (join d b u v) := mem_join_self
  have hpar := nodup_join.mp hsib.1
  have hpb : p ≠ b := parent_ne_sibling h.nodup
  have hsame {w : BinaryTree ι} (hbw : b ∉ inorder w) (hpw : p ∉ inorder w) :
      ∀ x ∈ inorder w, Function.update (Function.update red b true) p false x = red x := by
    intro x hx
    have hxp : x ≠ p := fun heq => hpw (heq ▸ hx)
    have hxb : x ≠ b := fun heq => hbw (heq ▸ hx)
    rw [Function.update_of_ne hxp, Function.update_of_ne hxb]
  have hps : p ∉ inorder u ∧ p ∉ inorder v := by
    have hps := hsib.2.1
    rw [mem_inorder_join, not_or, not_or] at hps
    exact hps.2
  have hsameu := hsame hpar.2.2.1 hps.1
  have hsamev := hsame hpar.2.2.2.1 hps.2
  have hbt : b ∉ inorder t := fun hx => (hsib.2.2 b (Or.inl hx)).2 hbs
  have hpt : p ∉ inorder t := fun hx => (hsib.2.2 p (Or.inl hx)).1 rfl
  have hproper := proper_join.mp h.short.properPath.1
  refine ⟨?_, ?_, Or.inl rootOf_join, ?_, h.nodup⟩
  · apply h.short.up rfl h.nodup hb (Function.update_self ..)
    intro x hx
    exact Function.update_of_ne hx _ _
  · refine proper_join.mpr ⟨?_, (h.proper_black hnode).congr (hsame hbt hpt), proper_join.mpr ⟨?_,
      hproper.2.1.congr hsameu, hproper.2.2.congr hsamev⟩⟩
    · intro hred
      rw [Function.update_self] at hred
      cases hred
    · intro _
      rw [rootRed_congr hsameu, rootRed_congr hsamev, ← rootIsRed_iff, ← rootIsRed_iff, hu, hv]
      exact ⟨Bool.false_ne_true, Bool.false_ne_true⟩
  · exact fun hx => (hsib.2.2 p (Or.inr hx)).1 rfl

omit [DecidableEq ι] in
theorem rootOf_isSome : (rootOf t).isSome = true ↔ t ≠ .nil := by
  cases t with
  | nil => simp [rootOf]
  | node a l r => simp [rootOf]

/-- What `levels` asks next to a red sibling, in the colours after the rotation. -/
theorem levels_rotate {ok : Side → BinaryTree ι → Bool} {c : ι} {u₁ u₂ : BinaryTree ι}
    (hnd : (inorder (fill (⟨d, p, join d b (join d c u₁ u₂) v⟩ :: fs) t)).Nodup) (hb : red b = true)
    (hred : red' = Function.update (Function.update red b false) p true) :
    levels red ok (⟨d, p, join d b (join d c u₁ u₂) v⟩ :: fs) =
      if rootIsRed red' u₂ then true else if rootIsRed red' u₁ then ok d u₂ else true := by
  have hsib := sibling_apart hnd
  have hpar := nodup_join.mp hsib.1
  have hsame : ∀ x ∈ inorder (join d c u₁ u₂), red' x = red x := by
    intro x hx
    have hxb : x ≠ b := fun heq => hpar.2.2.1 (heq ▸ hx)
    have hxp : x ≠ p := by
      intro heq
      exact hsib.2.1 (mem_inorder_join.mpr (Or.inr (Or.inl (heq ▸ hx))))
    rw [hred, Function.update_of_ne hxp, Function.update_of_ne hxb]
  have hsame₁ : rootIsRed red' u₁ = rootIsRed red u₁ :=
    rootIsRed_congr fun x hx => hsame x (mem_inorder_join.mpr (Or.inr (Or.inl hx)))
  have hsame₂ : rootIsRed red' u₂ = rootIsRed red u₂ :=
    rootIsRed_congr fun x hx => hsame x (mem_inorder_join.mpr (Or.inr (Or.inr hx)))
  rw [levels_rotated hb, hsame₁, hsame₂]

/-- A red sibling goes out of the way. -/
theorem Lacking.rotate (h : Lacking red node (⟨d, p, join d b u v⟩ :: fs) t n)
    (hnode : red node = false) (hb : red b = true) :
    Lacking (Function.update (Function.update red b false) p true) node
        (⟨d, p, u⟩ :: ⟨d, b, v⟩ :: fs) t n ∧
      Function.update (Function.update red b false) p true node = false ∧
      ¬ RootRed (Function.update (Function.update red b false) p true) u := by
  have hsib := sibling_apart h.nodup
  have hbs : b ∈ inorder (join d b u v) := mem_join_self
  have hbp : b ≠ p := (parent_ne_sibling h.nodup).symm
  have hapart := h.apart
  rw [mem_pathNodes_cons, not_or, not_or] at hapart
  have hnodeb : node ≠ b := fun heq => hapart.2.1 (heq ▸ hbs)
  have helse (x : ι) (hxb : x ≠ b) (hxp : x ≠ p) :
      Function.update (Function.update red b false) p true x = red x := by
    rw [Function.update_of_ne hxp, Function.update_of_ne hxb]
  have hblack : Function.update (Function.update red b false) p true node = false := by
    rw [helse node hnodeb hapart.1, hnode]
  have hb' : Function.update (Function.update red b false) p true b = false := by
    rw [Function.update_of_ne hbp, Function.update_self]
  obtain ⟨hshort, hu⟩ := h.short.rotate rfl h.nodup hb hb' (Function.update_self ..) helse
  refine ⟨⟨hshort, ?_, h.root.imp_right fun hnil => ⟨hnil.1, hblack⟩, ?_, ?_⟩, hblack, hu⟩
  · have hsame : Function.update (Function.update (Function.update red b false) p true) node false =
        Function.update (Function.update red b false) p true := by
      rw [Function.update_eq_self_iff]
      exact hblack.symm
    rw [hsame]
    apply (h.proper_black hnode).congr
    intro x hx
    have hx' := hsib.2.2 x (Or.inl hx)
    exact helse x (fun heq => hx'.2 (heq ▸ hbs)) hx'.1
  · intro hx
    rw [mem_pathNodes_cons, mem_pathNodes_cons] at hx
    rw [mem_inorder_join, not_or, not_or] at hapart
    obtain hx | hx | hx | hx | hx := hx
    · exact hapart.1 hx
    · exact hapart.2.1.2.1 hx
    · exact hapart.2.1.1 hx
    · exact hapart.2.1.2.2 hx
    · exact hapart.2.2 hx
  · have hin : inorder (fill (⟨d, p, u⟩ :: ⟨d, b, v⟩ :: fs) t) =
        inorder (fill (⟨d, p, join d b u v⟩ :: fs) t) := inorder_fill_congr (inorder_rotated d p b t u v)
    rw [hin]
    exact h.nodup

/-- A red root turns black, and nothing is short any more. -/
theorem Lacking.blacken (h : Lacking red node fs t n) (hnode : red node = true) :
    Good ⟨Function.update red node false, fs⟩ t := by
  have hpath : ∀ x ∈ pathNodes fs, Function.update red node false x = red x := by
    intro x hx
    have hne : x ≠ node := fun heq => h.apart (heq ▸ hx)
    rw [Function.update_of_ne hne]
  have hroot : rootOf t = some node := by
    apply h.root.resolve_right
    intro hnil
    rw [hnil.2] at hnode
    cases hnode
  have hblack : ¬ RootRed (Function.update red node false) t := by
    intro hred
    obtain ⟨a, ha, hred⟩ := hred
    rw [hroot] at ha
    cases ha
    rw [Function.update_self] at hred
    cases hred
  constructor
  · exact proper_fill.mpr ⟨h.proper, h.short.properPath.congr hpath, fun hred => absurd hred hblack⟩
  · refine balanced_fill.mpr ⟨n + 1, ?_, h.short.balancedPath.congr hpath⟩
    cases t with
    | nil => cases hroot
    | node a l r =>
      cases hroot
      have hnd := (nodup_join (d := .left)).mp (nodup_fill.mp h.nodup).1
      obtain ⟨m, hl, hr, hm⟩ := h.short.balanced
      rw [weight_of_red hnode, Nat.add_zero] at hm
      rw [hm]
      refine ⟨m, hl.congr ?_, hr.congr ?_, ?_⟩
      · intro x hx
        have hne : x ≠ node := fun heq => hnd.2.2.1 (heq ▸ hx)
        exact Function.update_of_ne hne _ _
      · intro x hx
        have hne : x ≠ node := fun heq => hnd.2.2.2.1 (heq ▸ hx)
        exact Function.update_of_ne hne _ _
      · rw [weight_of_black (Function.update_self ..)]

/-- The cases that the loop meets: the end, a black sibling, after which the parent may be next, and a
red one, after which the black sibling `c` is the last. -/
theorem Lacking.induct {P : (ι → Bool) → ι → List (Frame ι) → BinaryTree ι → Prop}
    (hend : ∀ {red node fs t n}, Lacking red node fs t n → red node = true → P red node fs t)
    (hroot : ∀ {red node t n}, Lacking red node [] t n → red node = false → P red node [] t)
    (hblack : ∀ {red node d p b u v fs t n}, Lacking red node (⟨d, p, join d b u v⟩ :: fs) t n →
      red node = false → red b = false → (rootIsRed red v = false → rootIsRed red u = false →
        P (Function.update red b true) p fs (join d p t (join d b u v))) →
      P red node (⟨d, p, join d b u v⟩ :: fs) t)
    (hrotated : ∀ {red node d p b c u₁ u₂ v fs t n},
      Lacking red node (⟨d, p, join d b (join d c u₁ u₂) v⟩ :: fs) t n → red node = false →
      red b = true → Lacking (Function.update (Function.update red b false) p true) node
        (⟨d, p, join d c u₁ u₂⟩ :: ⟨d, b, v⟩ :: fs) t n →
      Function.update (Function.update red b false) p true node = false →
      Function.update (Function.update red b false) p true c = false →
      P red node (⟨d, p, join d b (join d c u₁ u₂) v⟩ :: fs) t)
    (h : Lacking red node fs t n) : P red node fs t := by
  induction fs generalizing red node t n with
  | nil =>
    cases hnode : red node with
    | true => exact hend h hnode
    | false => exact hroot h hnode
  | cons f fs ih =>
    cases hnode : red node with
    | true => exact hend h hnode
    | false =>
      obtain ⟨d, p, s⟩ := f
      obtain ⟨b, u, v, hs⟩ := exists_join d h.short.sibling_ne_nil
      dsimp only at hs
      rw [hs] at h ⊢
      cases hb : red b with
      | false => exact hblack h hnode hb fun hv hu => ih (h.up hnode hb hv hu)
      | true =>
        obtain ⟨hlack, hnode₁, hc⟩ := h.rotate hnode hb
        obtain ⟨c, u₁, u₂, hu⟩ := exists_join d hlack.short.sibling_ne_nil
        dsimp only at hu
        rw [hu] at h hlack hc ⊢
        rw [rootRed_join, Bool.not_eq_true] at hc
        exact hrotated h hnode hb hlack hnode₁ hc

/-- What `levels` asks above a black sibling, in the colours after the turn. -/
theorem Lacking.levels_up {ok : Side → BinaryTree ι → Bool}
    (h : Lacking red node (⟨d, p, join d b u v⟩ :: fs) t n) (hb : red b = false)
    (hv : rootIsRed red v = false) (hu : rootIsRed red u = false) :
    levels red ok (⟨d, p, join d b u v⟩ :: fs) =
      (Function.update red b true p || levels (Function.update red b true) ok fs) := by
  have hsib := sibling_apart h.nodup
  have hbs : b ∈ inorder (join d b u v) := mem_join_self
  have hpb : p ≠ b := parent_ne_sibling h.nodup
  have hfs : levels (Function.update red b true) ok fs = levels red ok fs := by
    apply levels_congr
    intro x hx
    have hxb : x ≠ b := fun heq => (hsib.2.2 x (Or.inr hx)).2 (heq ▸ hbs)
    exact Function.update_of_ne hxb _ _
  rw [levels_black hb, hv, hu, hfs, Function.update_of_ne hpb]
  rfl

theorem mend_good (h : Lacking red node fs t n) (hok : red node = false → mendable red fs = true) :
    ∃ m, mend red node fs = some m ∧ Good m t := by
  revert hok
  apply h.induct (P := fun red node fs t => (red node = false → mendable red fs = true) →
    ∃ m, mend red node fs = some m ∧ Good m t)
  · intro red node fs t n h hnode _
    exact ⟨_, mend_red hnode fs, h.blacken hnode⟩
  · intro red node t n h hnode _
    have hsame : Function.update red node false = red := by
      rw [← hnode, Function.update_eq_self]
    refine ⟨⟨Function.update red node false, []⟩, rfl, ?_⟩
    rw [hsame]
    exact ⟨h.proper_black hnode, n, h.short.balanced⟩
  · intro red node d p b u v fs t n h hnode hb ih hok
    have hlevels := hok hnode
    rw [mend_black hnode hb]
    apply settle_good h.short (h.proper_black hnode) h.nodup hnode h.apart hb
    · intro hv hu
      rw [mendable, levels_black hb] at hlevels
      simpa [hv, hu, rootOf_isSome] using hlevels
    · intro hv hu
      rw [mendable, h.levels_up hb hv hu] at hlevels
      apply ih hv hu
      intro hp
      rw [hp, Bool.false_or] at hlevels
      exact hlevels
  · intro red node d p b c u₁ u₂ v fs t n h hnode hb hlack hnode₁ hc hok
    have hlevels := hok hnode
    have hpc : p ≠ c := parent_ne_sibling hlack.nodup
    rw [mendable, levels_rotate h.nodup hb rfl] at hlevels
    rw [mend_rotated hnode hb]
    apply settle_good hlack.short (hlack.proper_black hnode₁) hlack.nodup hnode₁ hlack.apart hc
    · intro hu₂ hu₁
      simpa [hu₂, hu₁, rootOf_isSome] using hlevels
    · intro hu₂ hu₁
      have hup := hlack.up hnode₁ hc hu₂ hu₁
      refine ⟨_, rfl, hup.blacken ?_⟩
      rw [Function.update_of_ne hpc, Function.update_self]

end Loop

section Bad

variable {m : Mended ι} {x : ι} {up : (ι → Bool) → Option (Mended ι)}

theorem lend_red_eq (hxn : x ≠ node) (hxp : x ≠ p) (hx : x ∉ inorder (join d b u v))
    (hm : lend red node d p b u v fs = some m) : m.red x = red x := by
  rw [mem_inorder_join, not_or, not_or] at hx
  cases v with
  | nil => cases hm
  | node a v₁ v₂ =>
    have hxa : x ≠ a := fun heq => hx.2.2 (heq ▸ by simp)
    by_cases ha : red a = true
    · rw [lend_red ha, Option.some.injEq] at hm
      rw [← hm]
      dsimp only [lentRed]
      rw [Function.update_of_ne hxn, Function.update_of_ne hxa, Function.update_of_ne hxp,
        Function.update_of_ne hx.1]
    · cases u with
      | nil =>
        rw [lend, if_neg ha] at hm
        cases hm
      | node c u₁ u₂ =>
        have hxc : x ≠ c := fun heq => hx.2.1 (heq ▸ by simp)
        rw [lend_black ha, Option.some.injEq] at hm
        rw [← hm]
        dsimp only [lentRed]
        rw [Function.update_of_ne hxn, Function.update_of_ne hx.1, Function.update_of_ne hxp,
          Function.update_of_ne hxc, Function.update_of_ne hx.1, Function.update_of_ne hxc]

theorem settle_red_eq (hxn : x ≠ node) (hxp : x ≠ p) (hx : x ∉ inorder (join d b u v))
    (hup : ∀ m ∈ up (Function.update red b true), m.red x = red x)
    (hm : settle red node d p (join d b u v) fs up = some m) : m.red x = red x := by
  rw [settle_eq] at hm
  cases htest : blackTest red d u v with
  | none =>
    rw [htest] at hm
    cases hm
  | some r =>
    rw [htest] at hm
    cases r with
    | false => exact lend_red_eq hxn hxp hx hm
    | true =>
      obtain ⟨m', hm', heq⟩ := Option.map_eq_some_iff.mp hm
      rw [← heq]
      exact hup m' hm'

/-- The loop colours only nodes on the path and beside it. -/
theorem mend_red_eq (hx : x ∉ pathNodes fs) (hxn : x ≠ node) (hm : mend red node fs = some m) :
    m.red x = red x := by
  induction fs generalizing red node m with
  | nil =>
    rw [mend, Option.some.injEq] at hm
    rw [← hm]
    exact Function.update_of_ne hxn _ _
  | cons f fs ih =>
    cases hnode : red node with
    | true =>
      rw [mend_red hnode, Option.some.injEq] at hm
      rw [← hm]
      exact Function.update_of_ne hxn _ _
    | false =>
      obtain ⟨d, p, s⟩ := f
      rw [mem_pathNodes_cons, not_or, not_or] at hx
      dsimp only at hx
      by_cases hs : s = .nil
      · rw [hs, mend, hnode] at hm
        cases hm
      · obtain ⟨b, u, v, hjoin⟩ := exists_join d hs
        rw [hjoin] at hx hm
        have hxs := hx.2.1
        rw [mem_inorder_join, not_or, not_or] at hxs
        cases hb : red b with
        | false =>
          rw [mend_black hnode hb] at hm
          apply settle_red_eq hxn hx.1 hx.2.1 _ hm
          intro m' hm'
          rw [ih hx.2.2 hx.1 hm', Function.update_of_ne hxs.1]
        | true =>
          have hsame : Function.update (Function.update red b false) p true x = red x := by
            rw [Function.update_of_ne hx.1, Function.update_of_ne hxs.1]
          rw [mend_rotated hnode hb] at hm
          by_cases hu : u = .nil
          · rw [hu] at hm
            cases hm
          · obtain ⟨c, u₁, u₂, hc⟩ := exists_join d hu
            rw [hc] at hxs hm
            have hxc : x ≠ c := fun heq => hxs.2.1 (mem_inorder_join.mpr (Or.inl heq))
            rw [← hsame]
            apply settle_red_eq hxn hx.1 hxs.2.1 _ hm
            intro m' hm'
            cases hm'
            dsimp only
            rw [Function.update_of_ne hx.1, Function.update_of_ne hxc]

/-- Where the loop comes to an inner child alone that is red, and must not, it follows a null pointer
or leaves a red node below a red one. -/
theorem mend_bad (h : Lacking red node fs t n) (hnode : red node = false)
    (hbad : mendable red fs = false) (hm : mend red node fs = some m) :
    ¬ Proper m.red (fill m.path t) := by
  revert m
  revert hbad
  revert hnode
  apply h.induct (P := fun red node fs t => red node = false → mendable red fs = false →
    ∀ {m}, mend red node fs = some m → ¬ Proper m.red (fill m.path t))
  · intro red node fs t n h hred hnode
    rw [hred] at hnode
    cases hnode
  · intro red node t n h _ _ hbad
    cases hbad
  · intro red node d p b u v fs t n h _ hb ih hnode hbad m hm
    have hsib := sibling_apart h.nodup
    rw [mend_black hnode hb] at hm
    have hbad' := hbad
    rw [mendable, levels_black hb] at hbad'
    have hv : rootIsRed red v = false := by
      by_contra hv
      simp [hv] at hbad'
    cases hu : rootIsRed red u with
    | true =>
      apply settle_bad hv hu _ hsib.1 _ hm
      · intro hgood
        have hsome := rootOf_isSome.mpr hgood.2
        simp [hv, hu, hgood.1, hsome] at hbad'
      · intro m' hm' x hx
        apply mend_red_eq _ _ hm'
        · exact fun hpath => (hsib.2.2 x (Or.inr hpath)).2 hx
        · exact fun heq => hsib.2.1 (heq ▸ hx)
    | false =>
      rw [mendable, h.levels_up hb hv hu, Bool.or_eq_false_iff] at hbad
      rw [settle_eq, blackTest_black h.short hv hu] at hm
      obtain ⟨m', hm', heq⟩ := Option.map_eq_some_iff.mp hm
      rw [← heq]
      exact ih hv hu hbad.1 hbad.2 hm'
  · intro red node d p b c u₁ u₂ v fs t n h _ hb hlack hnode₁ hc hnode hbad m hm
    have hsib := sibling_apart hlack.nodup
    rw [mend_rotated hnode hb] at hm
    rw [mendable, levels_rotate h.nodup hb rfl] at hbad
    have hu₂ : rootIsRed (Function.update (Function.update red b false) p true) u₂ = false := by
      by_contra hu₂
      simp [hu₂] at hbad
    have hu₁ : rootIsRed (Function.update (Function.update red b false) p true) u₁ = true := by
      by_contra hu₁
      simp [hu₁] at hbad
    apply settle_bad hu₂ hu₁ _ hsib.1 _ hm
    · intro hgood
      have hsome := rootOf_isSome.mpr hgood.2
      simp [hu₂, hu₁, hgood.1, hsome] at hbad
    · intro m' hm' x hx
      cases hm'
      have hxp : x ≠ p := fun heq => hsib.2.1 (heq ▸ hx)
      exact Function.update_of_ne hxp _ _

end Bad

end MgRaffle.RbTree
