import MgRaffle.RbTree.Swap

namespace MgRaffle.RbTree

open LinkedTree LinkedTree.Links

variable {ι κ : Type*} [DecidableEq ι] [LinearOrder κ] {key : ι → κ} {T T' : MgRbTree ι}
  {N N' : Nodes ι} {S : Set ι} {L₀ : Links ι} {a b dnode : ι} {t t' l r : BinaryTree ι}
  {fs : List (Frame ι)} {fuel : ℕ} {k : κ}

/-- `delete_rb_node` ends; it leaves the tree alone if the key is absent, and a tree without it
otherwise. -/
def DeleteKeeps (key : ι → κ) (T : MgRbTree ι) (t : BinaryTree ι) (dnode : ι) : Prop :=
  ∃ fuel T', T.deleteRbNode fuel dnode = some T' ∧
    ((¬ ∃ x ∈ inorder t, key x = key dnode) → T' = T) ∧
    ((∃ x ∈ inorder t, key x = key dnode) → ∃ t', T'.Represents t' ∧
      (inorder t').map key = ((inorder t).map key).filter (· ≠ key dnode))

/-- The key is absent, or it is that of a leaf which is red, or the root, or without a lopsided
sibling. -/
def removable (key : ι → κ) (red : ι → Bool) (k : κ) (t : BinaryTree ι) : Bool :=
  match descend key k [] t with
  | (_, .nil) => true
  | (fs, .node a .nil .nil) => red a || fs.head?.all fun f => !lopsided red f
  | (_, .node _ _ _) => false

section Survival

theorem removeNode_fenced (h : Fenced S L₀ N.toLinks) (ha : a ∈ S)
    (hrun : removeNode fuel a N = some N') : Fenced S L₀ N'.toLinks := by
  rw [removeNode] at hrun
  split_ifs at hrun
  · obtain ⟨c, hc, hrun⟩ := Option.bind_eq_some_iff.mp hrun
    obtain ⟨N₁, hchange, hrun⟩ := Option.bind_eq_some_iff.mp hrun
    obtain ⟨b, hb, hloop⟩ := Option.bind_eq_some_iff.mp hc
    have hcS : c ∈ S := by
      apply Looping.loop_partial (· ∈ S) (· ∈ S) _ _ (h.child a ha .right b hb) hloop
      · intro x y hx hturn
        rw [replaceTurn] at hturn
        split at hturn
        · cases hturn
          exact h.child x hx .left _ ‹_›
        · cases hturn
      · intro x y hx hturn
        rw [replaceTurn] at hturn
        split at hturn
        · cases hturn
        · cases hturn
          exact hx
    exact unlinkNode_fenced (changeRbNode_fenced h ha hcS hchange) ha hrun
  · exact unlinkNode_fenced h ha hrun

/-- Keys that are left are those of the nodes that had them. -/
theorem survives (h : Searchable key T t) (ha : a ∈ inorder t)
    (hrun : removeNode fuel a T.toNodes = some N') (ht' : N'.Represents t')
    (hkeys : (inorder t').map key = ((inorder t).map key).filter (· ≠ k)) (hb : b ∈ inorder t)
    (hbk : key b ≠ k) : b ∈ inorder t' := by
  have hfenced := removeNode_fenced (S := {x | x ∈ inorder t}) h.represents.fenced ha hrun
  have hroot : ∀ y ∈ N'.root, y ∈ {x | x ∈ inorder t} := by
    apply hfenced.root
    intro y hy
    exact rootOf_mem (h.represents.root_eq.symm.trans hy)
  have hmem : key b ∈ (inorder t').map key := by
    rw [hkeys, List.mem_filter]
    exact ⟨List.mem_map_of_mem hb, by simpa using hbk⟩
  obtain ⟨y, hy, hkey⟩ := List.mem_map.mp hmem
  obtain rfl : y = b := h.ordered.eq_of_key (hfenced.mem_of_holds ht'.holds hroot y hy) hb hkey
  exact hy

theorem removeNode_one (h : N.Represents (fill fs (.node a l r))) (hne : l = .nil ∨ r = .nil) :
    removeNode fuel a N = unlinkNode fuel a N := by
  obtain ⟨hl, hr⟩ := h.child_node
  rw [removeNode, if_neg]
  rintro ⟨hcl, hcr⟩
  rcases hne with rfl | rfl
  · exact hcl hl
  · exact hcr hr

section Failures

variable (h : Searchable key T (fill fs (.node a l r)))
  (hrun : removeNode fuel a T.toNodes = some N') (ht' : N'.Represents t')

include h hrun ht'

/-- A node that has become its own child is in no tree. -/
theorem not_removed_of_selfChild {c : ι} {e : Side} (hc : c ∈ inorder (fill fs (.node a l r)))
    (hca : c ≠ a) (hself : N'.child e c = some c) :
    (inorder t').map key ≠ ((inorder (fill fs (.node a l r))).map key).filter (· ≠ key a) := by
  intro hkeys
  have ha : a ∈ inorder (fill fs (.node a l r)) := mem_inorder_fill.mpr (Or.inl (by simp))
  have hkey : key c ≠ key a := fun heq => hca (h.ordered.eq_of_key hc ha heq)
  exact ht'.child_ne (survives h ha hrun ht' hkeys hc hkey) hself

theorem not_removed_of_onlyChild {e : Side} {u : BinaryTree ι}
    (hshape : .node a l r = join e a u .nil) (hu : u ≠ .nil) (hone : l = .nil ∨ r = .nil) :
    (inorder t').map key ≠ ((inorder (fill fs (.node a l r))).map key).filter (· ≠ key a) := by
  have hproper := (proper_fill.mp h.redBlack.proper).1
  obtain ⟨n, hbalanced, -⟩ := balanced_fill.mp h.redBlack.balanced
  have hrep := h.represents
  rw [hshape] at hproper hbalanced hrep
  obtain ⟨hred, c, rfl⟩ := only_child hproper hbalanced hu
  obtain ⟨N₂, hN₂, hself⟩ := unlinkNode_onlyChild fuel hrep hred
  have hlinks := hrun
  rw [removeNode_one h.represents hone, hN₂, Option.some.injEq] at hlinks
  subst hlinks
  have hchild : T.toLinks.Represents (fill (⟨e, a, .nil⟩ :: fs) (.node c .nil .nil)) := hrep
  apply not_removed_of_selfChild h hrun ht' _ _ hself
  · rw [hshape]
    exact mem_inorder_fill.mpr (Or.inl (mem_inorder_join.mpr (Or.inr (Or.inl (by simp)))))
  · rintro rfl
    exact hchild.above_ne (by simp) rfl

theorem not_removed_of_children (hl : l ≠ .nil) (hr : r ≠ .nil) :
    (inorder t').map key ≠ ((inorder (fill fs (.node a l r))).map key).filter (· ≠ key a) := by
  have hright : T.toLinks.Represents (fill (⟨.right, a, l⟩ :: fs) r) := h.represents
  obtain ⟨gs, c, r', x, n, rfl, hside, hx, hloop⟩ := replace_loop hright hr
  cases gs with
  | nil =>
    apply not_removed_of_selfChild h hrun ht' _ _ (removeNode_near h.represents hl hrun)
    · exact mem_inorder_fill.mpr (Or.inl (by simp))
    · rintro rfl
      exact hright.above_ne (by simp) rfl
  | cons g gs =>
    intro hkeys
    obtain ⟨b, u, v, rfl⟩ := exists_join .left hl
    have hparent := removeNode_far h.represents (hside g (by simp)) hx hloop rootOf_join hrun
    have hleft : T.toLinks.Represents (fill (⟨.left, a, _⟩ :: fs) (join .left b u v)) :=
      h.represents
    have ha : a ∈ inorder (fill fs (.node a (join .left b u v) (fill (g :: gs) (.node c .nil r')))) :=
      mem_inorder_fill.mpr (Or.inl (by simp))
    have hb : b ∈ inorder (fill fs (.node a (join .left b u v) (fill (g :: gs) (.node c .nil r')))) :=
      mem_inorder_fill.mpr (Or.inl (by simp [mem_inorder_join]))
    have hkey : key b ≠ key a := by
      intro heq
      apply hleft.above_ne (x := a) _ rfl
      rw [← h.ordered.eq_of_key hb ha heq]
      exact mem_join_self
    -- the parent of `b` is in the tree with `b`, although its key should be gone
    have hmem := ht'.parent_mem (survives h ha hrun ht' hkeys hb hkey) hparent
    have hka : key a ∈ (inorder t').map key := List.mem_map_of_mem hmem
    rw [hkeys, List.mem_filter] at hka
    simpa using hka.2

end Failures

end Survival

section Theorem

/-- What the search in front of a deletion comes to. -/
theorem deleteRbNode_some (h : Searchable key T t)
    (hrun : T.deleteRbNode fuel dnode = some T') :
    match rootOf (descend key (key dnode) [] t).2 with
    | none => T' = T
    | some a => ∃ N', removeNode fuel a T.toNodes = some N' ∧ T' = T.withNodes N' := by
  rw [MgRbTree.deleteRbNode] at hrun
  obtain ⟨res, hres, hrun⟩ := Option.bind_eq_some_iff.mp hrun
  rw [← h.search_of_some hres]
  cases res with
  | none =>
    cases hrun
    rfl
  | some a =>
    obtain ⟨N', hremove, hrun⟩ := Option.bind_eq_some_iff.mp hrun
    cases hrun
    exact ⟨N', hremove, rfl⟩

theorem map_filter_key (h : Ordered key t) (ha : a ∈ inorder t) :
    ((inorder t).filter (· ≠ a)).map key = ((inorder t).map key).filter (· ≠ key a) := by
  rw [List.filter_map]
  congr 1
  apply List.filter_congr
  intro x hx
  simp only [Function.comp, ne_eq, decide_eq_decide]
  exact not_congr ⟨fun heq => congrArg key heq, fun heq => h.eq_of_key hx ha heq⟩

theorem Searchable.delete_absent (h : Searchable key T t)
    (hd : (descend key (key dnode) [] t).2 = .nil) : DeleteKeeps key T t dnode := by
  refine ⟨t.height + 1, T, ?_, fun _ => rfl, ?_⟩
  · rw [MgRbTree.deleteRbNode, h.search_eq _ _ (Nat.lt_succ_self _), hd]
    rfl
  · intro hkey
    exact absurd hd ((exists_key_iff h.ordered).mp hkey)

theorem Searchable.delete_leaf (h : Searchable key T (fill fs (.node a .nil .nil)))
    (hd : descend key (key dnode) [] (fill fs (.node a .nil .nil)) = (fs, .node a .nil .nil))
    (hlop : T.red a = false → ∀ f ∈ fs.head?, lopsided T.red f = false) :
    DeleteKeeps key T (fill fs (.node a .nil .nil)) dnode := by
  have hkey : key a = key dnode := descend_found (congrArg Prod.snd hd)
  have ha : a ∈ inorder (fill fs (.node a .nil .nil)) := mem_inorder_fill.mpr (Or.inl (by simp))
  have hlen := length_descend key (key dnode) (fill fs (.node a .nil .nil)) []
  rw [hd, List.length_nil, Nat.zero_add] at hlen
  have hfuel : fs.length + 1 < (fill fs (.node a .nil .nil)).height + 2 := by
    simp only at hlen
    omega
  obtain ⟨N', t', hunlink, ht', hin⟩ := unlinkNode_leaf h.represents h.redBlack hlop hfuel
  refine ⟨(fill fs (.node a .nil .nil)).height + 2, T.withNodes N', ?_, ?_, fun _ => ⟨t', ht', ?_⟩⟩
  · rw [MgRbTree.deleteRbNode, h.search_eq _ _ (by omega), hd]
    simp [rootOf, removeNode_one h.represents (Or.inl rfl), hunlink]
  · intro habsent
    exact absurd ⟨a, ha, hkey⟩ habsent
  · rw [hin, map_filter_key h.ordered ha, hkey]

theorem DeleteKeeps.removed (hkeeps : DeleteKeeps key T (fill fs (.node a l r)) dnode)
    (h : Searchable key T (fill fs (.node a l r)))
    (hd : descend key (key dnode) [] (fill fs (.node a l r)) = (fs, .node a l r)) :
    ∃ fuel N' t', removeNode fuel a T.toNodes = some N' ∧ N'.Represents t' ∧
      (inorder t').map key = ((inorder (fill fs (.node a l r))).map key).filter (· ≠ key a) := by
  have hkey : key a = key dnode := descend_found (congrArg Prod.snd hd)
  have ha : a ∈ inorder (fill fs (.node a l r)) := mem_inorder_fill.mpr (Or.inl (by simp))
  obtain ⟨fuel, T', hrun, -, hpresent⟩ := hkeeps
  obtain ⟨t', ht', hkeys⟩ := hpresent ⟨a, ha, hkey⟩
  have hsome := deleteRbNode_some h hrun
  rw [hd] at hsome
  obtain ⟨N', hremove, rfl⟩ := hsome
  rw [← hkey] at hkeys
  exact ⟨fuel, N', t', hremove, ht', hkeys⟩

/-- The leaf is the one kind of node that can be removed, and not next to a lopsided sibling. -/
theorem Searchable.not_delete_leaf {f : Frame ι}
    (h : Searchable key T (fill (f :: fs) (.node a .nil .nil)))
    (hd : descend key (key dnode) [] (fill (f :: fs) (.node a .nil .nil)) =
      (f :: fs, .node a .nil .nil)) (hred : T.red a = false) (hlop : lopsided T.red f = true) :
    ¬ DeleteKeeps key T (fill (f :: fs) (.node a .nil .nil)) dnode := by
  intro hkeeps
  obtain ⟨fuel, N', t', hremove, -, -⟩ := hkeeps.removed h hd
  rw [removeNode_one h.represents (Or.inl rfl),
    unlinkNode_lopsided h.represents h.redBlack hred hlop] at hremove
  cases hremove

theorem Searchable.not_delete_parent (h : Searchable key T (fill fs (.node a l r)))
    (hd : descend key (key dnode) [] (fill fs (.node a l r)) = (fs, .node a l r))
    (hne : ¬ (l = .nil ∧ r = .nil)) : ¬ DeleteKeeps key T (fill fs (.node a l r)) dnode := by
  intro hkeeps
  obtain ⟨fuel, N', t', hremove, ht', hkeys⟩ := hkeeps.removed h hd
  by_cases hl : l = .nil
  · have hr : r ≠ .nil := fun hr => hne ⟨hl, hr⟩
    subst hl
    exact not_removed_of_onlyChild (e := .right) h hremove ht' rfl hr (Or.inl rfl) hkeys
  · by_cases hr : r = .nil
    · subst hr
      exact not_removed_of_onlyChild (e := .left) h hremove ht' rfl hl (Or.inr rfl) hkeys
    · exact not_removed_of_children h hremove ht' hl hr hkeys

/-- A deletion removes one key exactly if the key is absent or that of a removable leaf. -/
theorem deleteKeeps_iff (h : Searchable key T t) :
    DeleteKeeps key T t dnode ↔ removable key T.red (key dnode) t = true := by
  rcases hd : descend key (key dnode) [] t with ⟨fs, u⟩
  have hfill := fill_descend key (key dnode) t []
  simp only [hd, fill_nil] at hfill
  subst hfill
  rw [removable, hd]
  cases u with
  | nil =>
    have habsent := h.delete_absent (congrArg Prod.snd hd)
    simpa using habsent
  | node a l r =>
    by_cases hleaf : l = .nil ∧ r = .nil
    · obtain ⟨rfl, rfl⟩ := hleaf
      constructor
      · intro hkeeps
        cases fs with
        | nil => simp
        | cons f fs =>
          cases hred : T.red a with
          | true => simp [hred]
          | false =>
            cases hlop : lopsided T.red f with
            | true => exact absurd hkeeps (h.not_delete_leaf hd hred hlop)
            | false => simp [hred, hlop]
      · intro hrem
        apply h.delete_leaf hd
        intro hred f hf
        simp only [hred, Bool.false_or, Option.all_eq_true] at hrem
        simpa using hrem f hf
    · have hnot := h.not_delete_parent hd hleaf
      refine iff_of_false hnot ?_
      cases l <;> cases r <;> simp_all

/-- A black root `2` with black children `1` and `4`; the red `3` is the left child of `4`. -/
def fourNodes : MgRbTree ℕ where
  parent a := match a with
    | 1 => some 2
    | 4 => some 2
    | 3 => some 4
    | _ => none
  child d a := match d, a with
    | .left, 2 => some 1
    | .right, 2 => some 4
    | .left, 4 => some 3
    | _, _ => none
  root := some 2
  type a := if a = 3 then .red else .black
  count := 4
  compare l r := r - l

theorem fourNodes_searchable : Searchable id fourNodes
    (.node 2 (.node 1 .nil .nil) (.node 4 (.node 3 .nil .nil) .nil)) where
  represents := ⟨⟨rfl, rfl, ⟨rfl, rfl, rfl, rfl⟩, rfl, rfl, ⟨rfl, rfl, rfl, rfl⟩, rfl⟩, by decide⟩
  compares := ⟨fun l r => by simp [fourNodes], fun l r => by simp [fourNodes]⟩
  ordered := by simp [Ordered]
  redBlack := ⟨by simp [Nodes.red, fourNodes], by simp [Proper, Nodes.red, fourNodes],
    ⟨2, 1, ⟨0, rfl, rfl, rfl⟩, ⟨0, ⟨0, rfl, rfl, rfl⟩, rfl, rfl⟩, rfl⟩⟩

/-- The red leaf below `4` can be deleted; of the black leaf `1` the sibling leans to its side. -/
theorem deleteKeeps_iff_fourNodes :
    DeleteKeeps id fourNodes (.node 2 (.node 1 .nil .nil) (.node 4 (.node 3 .nil .nil) .nil)) 3 ∧
    ¬ DeleteKeeps id fourNodes
      (.node 2 (.node 1 .nil .nil) (.node 4 (.node 3 .nil .nil) .nil)) 1 :=
  ⟨(deleteKeeps_iff fourNodes_searchable).mpr (by decide),
    mt (deleteKeeps_iff fourNodes_searchable).mp (by decide)⟩
/-- A black root `0` with a red right child `1`. -/
def twoNodes : MgRbTree ℕ where
  parent a := if a = 1 then some 0 else none
  child d a := if d = .right ∧ a = 0 then some 1 else none
  root := some 0
  type a := if a = 0 then .black else .red
  count := 2
  compare l r := r - l

theorem twoNodes_searchable : Searchable id twoNodes (.node 0 .nil (.node 1 .nil .nil)) where
  represents := ⟨⟨rfl, rfl, rfl, rfl, rfl, rfl, rfl⟩, by decide⟩
  compares := ⟨fun l r => by simp [twoNodes], fun l r => by simp [twoNodes]⟩
  ordered := by simp [Ordered]
  redBlack := ⟨by simp [Nodes.red, twoNodes], by simp [Proper, Nodes.red, twoNodes],
    ⟨1, 0, rfl, ⟨0, rfl, rfl, rfl⟩, rfl⟩⟩

theorem delete_root_loops_child : Searchable id twoNodes (.node 0 .nil (.node 1 .nil .nil)) ∧
    ¬ DeleteKeeps id twoNodes (.node 0 .nil (.node 1 .nil .nil)) 0 := by
  have h : Searchable id twoNodes (fill [] (.node 0 .nil (.node 1 .nil .nil))) :=
    twoNodes_searchable
  exact ⟨h, h.not_delete_parent rfl (by simp)⟩

end Theorem

end MgRaffle.RbTree
