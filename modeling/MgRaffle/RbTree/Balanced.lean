import MgRaffle.RbTree.Ordered

namespace MgRaffle.RbTree

open LinkedTree

section Straight

variable {ι : Type*}

/-- A node put at the end of the path is on the same side of its parent as this is of the
grandparent, and so is each node that the loop goes on to. -/
def straight (red : ι → Bool) : List (Frame ι) → Bool
  | f :: g :: fs => !red f.id || (f.side == g.side && (!(rootOf g.sibling).any red || straight red fs))
  | _ => true

variable {red red' : ι → Bool} {f g : Frame ι} {fs : List (Frame ι)} {t : BinaryTree ι}

theorem straight_cons (h : straight red (f :: g :: fs) = true) (hf : red f.id = true) :
    f.side = g.side ∧ (RootRed red g.sibling → straight red fs = true) := by
  simp only [straight, hf, Bool.not_true, Bool.false_or, Bool.and_eq_true, beq_iff_eq] at h
  refine ⟨h.1, ?_⟩
  rintro ⟨u, hu, hred⟩
  have htail := h.2
  rw [Option.mem_def.mp hu] at htail
  simpa [hred] using htail

theorem straight_congr (hred : ∀ a ∈ pathNodes fs, red' a = red a) :
    straight red' fs = straight red fs := by
  induction fs using straight.induct with
  | case1 f g fs ih =>
    have hf := hred f.id (mem_pathNodes_cons.mpr (Or.inl rfl))
    have hg : (rootOf g.sibling).any red' = (rootOf g.sibling).any red := by
      cases hs : g.sibling with
      | nil => rfl
      | node a l r =>
        apply hred a
        rw [mem_pathNodes_cons, mem_pathNodes_cons, hs]
        simp
    rw [straight, straight, hf, hg, ih]
    intro a ha
    exact hred a (mem_pathNodes_cons.mpr (Or.inr (Or.inr (mem_pathNodes_cons.mpr
      (Or.inr (Or.inr ha))))))
  | case2 fs h => cases fs with
    | nil => rfl
    | cons f fs => cases fs with
      | nil => rfl
      | cons g fs => exact absurd rfl (h f g fs)

end Straight

section Loop

variable {ι : Type*} [DecidableEq ι] {breaks : Bool}

/-- What the loop keeps where it never meets a node on the other side than its parent. -/
structure Repairing (m : ℕ) (s : ι × Nodes ι) : Prop where
  zipper : ∃ fs t n, s.2.Represents (fill fs t) ∧ rootOf t = some s.1 ∧ fs.length = m ∧
    Repair s.2.red fs t n ∧ straight s.2.red fs = true
  rootBlack : m ≠ 0 → ∀ r ∈ s.2.root, s.2.red r = false

theorem repairing_turn {m : ℕ} {s : ι × Nodes ι} (h : Repairing m s) :
    (∃ s', rebalanceTurn breaks s = some (.inl s') ∧ ∃ k < m, Repairing k s') ∨
      ∃ T', rebalanceTurn breaks s = some (.inr T') ∧
        ∃ t, T'.Represents t ∧ Proper T'.red t ∧ ∃ n, Balanced T'.red t n := by
  obtain ⟨node, T⟩ := s
  obtain ⟨⟨fs, t, n, hrep, hx, rfl, hrepair, hstraight⟩, hroot⟩ := h
  by_cases hblack : ∀ a ∈ above fs, T.red a = false
  · exact Or.inr ⟨T, turn_stop hrep hx hblack, _, hrep, hrepair.done hblack⟩
  · left
    obtain ⟨f, g, fs, rfl, hf, hroot⟩ := exists_grandparent hrep hblack hroot
    obtain ⟨hside, htail⟩ := straight_cons hstraight hf
    have hfg := grandparent_ne hrep
    by_cases hu : RootRed T.red g.sibling
    · obtain ⟨u, hug, hured⟩ := hu
      have huncle : uncle f g = some u := (if_pos hside).trans hug
      have hug' : u ≠ f.id ∧ u ≠ g.id :=
        ne_of_mem_parts hrep.nodup (Or.inr (Or.inr (Or.inl (rootOf_mem hug))))
      refine ⟨_, turn_recolour hrep hx hf huncle hured, fs.length, by simp, ?_⟩
      refine ⟨⟨fs, g.attach (f.attach t), n + 1, hrep, rootOf_join, rfl, ?_, ?_⟩,
        fun hfs => rootBlack_recolour hrep hfs hroot⟩
      · apply hrepair.recolour hrep.nodup hf _ _ ⟨u, hug, hured⟩
        · intro a ha
          obtain rfl : u = a := Option.some.inj (hug.symm.trans ha)
          simp
        · intro x hxf hxg hxu
          have hxu' : x ≠ u := fun heq => hxu (heq ▸ hug)
          simp [hxf, hxg, hxu']
        · simp
        · simp [hfg.symm, hug'.2.symm]
      · rw [straight_congr, htail ⟨u, hug, hured⟩]
        intro x hx
        obtain ⟨hxf, hxg⟩ := ne_of_mem_parts hrep.nodup (Or.inr (Or.inr (Or.inr hx)))
        have hxu : x ≠ u := fun heq =>
          not_mem_uncle hrep.nodup (Or.inr (Or.inr hx)) (heq ▸ rootOf_mem hug)
        simp [hxf, hxg, hxu]
    · obtain ⟨L', hturn, hnew⟩ := turn_rotate breaks hrep hx hf hside hu
      refine ⟨_, hturn, fs.length + 1, by simp, ?_⟩
      refine ⟨⟨_, t, n, hnew, hx, rfl, ?_, ?_⟩, fun _ => rootBlack_rotate hrep hnew hroot⟩
      · apply hrepair.rotate hrep.nodup hf _ _ hu
        · intro x hxf hxg
          simp [hxf, hxg]
        · simp [hfg]
        · simp
      · cases fs <;> simp [straight, hfg]

/-- The loop leaves the tree as it has to be but for the colour of the root. -/
theorem rebalance_repairs (breaks : Bool) {m fuel : ℕ} {s : ι × Nodes ι} (h : Repairing m s) (hfuel : m < fuel) :
    ∃ T', Looping.loop (rebalanceTurn breaks) fuel s = some T' ∧
      ∃ t, T'.Represents t ∧ Proper T'.red t ∧ ∃ n, Balanced T'.red t n :=
  Looping.loop_total (fun _ _ hs => repairing_turn hs) h hfuel

end Loop

section Run

variable {α : Type*} [LinearOrder α]

/-- The insertion of `v` never meets a node on the other side than its parent. -/
def RBTree.keepsStraight (v : α) (S : RBTree α) : Bool :=
  match descend S.val v [] (S.toTree S.next S.root) with
  | (fs, .nil) => straight S.red fs
  | (_, .node _ _ _) => true

/-- Each insertion of the run meets the condition in the state that it starts from. -/
def straightRun (fuel : ℕ) : List α → RBTree α → Bool
  | [], _ => true
  | v :: vs, S => S.keepsStraight v && (S.insertNode fuel v).all fun r => straightRun fuel vs r.2

variable {S : RBTree α} {vs : List α} {v : α} {t : BinaryTree ℕ} {fuel : ℕ}
  {f : Frame ℕ} {fs : List (Frame ℕ)}

theorem Holding.numNodes_le (h : Holding S vs t) : t.numNodes ≤ S.next := by
  rw [← length_inorder, ← List.length_range (n := S.next)]
  apply (List.subperm_of_subset h.represents.nodup _).length_le
  intro a ha
  exact List.mem_range.mpr (h.fresh a ha)

theorem Holding.toTree_eq (h : Holding S vs t) : S.toTree S.next S.root = t :=
  h.represents.holds.toTree_eq (t.height_le_numNodes.trans h.numNodes_le)

theorem redBlack_create (h : Holding S vs t) (hrb : RedBlack S.red t) (v : α) :
    RedBlack (S.createNode v).red t :=
  hrb.congr fun a ha => createNode_red (h.fresh a ha).ne

theorem redBlack_below (h : Holding S vs t) (hrb : RedBlack S.red t) (hfuel : vs.length < fuel)
    (hd : descend (S.createNode v).val v [] t = (f :: fs, .nil))
    (hstraight : straight S.red (f :: fs) = true) : ∃ S' t', S.insertNode fuel v = some (none, S') ∧
      Holding S' (vs ++ [v]) t' ∧ RedBlack S'.red t' := by
  obtain ⟨hc, -⟩ := h.create v
  obtain ⟨hred, -⟩ := createNode_new (S := S) (v := v)
  obtain ⟨hfill, -, hlen, hlink⟩ := h.linked hd
  obtain ⟨N, S', t', hN, ht', hins, hS', hcolour⟩ := holding_below h hfuel hd
  have hrb' := redBlack_create h hrb v
  subst hfill
  have hrepairing : Repairing (f :: fs).length
      (S.next, ((S.createNode v).link S.next f.id).toNodes) := by
    refine ⟨⟨f :: fs, _, 0, hlink, rfl, rfl, repair_leaf hrb' hred, ?_⟩,
      fun _ r hr => hc.rootBlack r (by simpa using hr)⟩
    rw [← hstraight]
    apply straight_congr
    intro a ha
    exact createNode_red (v := v) (h.fresh a (mem_inorder_fill.mpr (Or.inr ha))).ne
  obtain ⟨N', hN', u, hu, hproper, hbalanced⟩ :=
    rebalance_repairs true hrepairing (hlen.trans_lt hfuel)
  obtain rfl : N = N' := Option.some.inj (hN.symm.trans hN')
  obtain rfl : t' = u := ht'.unique hu
  refine ⟨S', t', hins, hS', redBlack_of_root ht'.nodup hproper hbalanced ?_ ?_⟩
  · intro a ha
    rw [hcolour, if_pos ha]
  · intro x _ hx
    rw [hcolour, if_neg hx]

theorem redBlack_insertNode (h : Holding S vs t) (hrb : RedBlack S.red t) (hfuel : vs.length < fuel)
    (hv : S.keepsStraight v = true) : ∃ r S' t', S.insertNode fuel v = some (r, S') ∧
      Holding S' (vs ++ [v]) t' ∧ RedBlack S'.red t' := by
  obtain ⟨hc, -⟩ := h.create v
  have hsame : descend (S.createNode v).val v [] t = descend S.val v [] t :=
    descend_congr fun a ha => Function.update_of_ne (h.fresh a ha).ne ..
  rw [RBTree.keepsStraight, h.toTree_eq] at hv
  rcases hd : descend S.val v [] t with ⟨gs, u⟩
  rw [hd] at hsame hv
  cases u with
  | node a l r =>
    obtain ⟨S', t', hins, hS'⟩ := holding_insertNode h v hfuel
    have hexist := insertNode_exist hc.represents (congrArg Prod.snd hsame) (h.height_le.trans_lt hfuel)
    rw [hexist, Option.some.injEq, Prod.mk.injEq] at hins
    obtain ⟨-, rfl⟩ := hins
    obtain rfl : t = t' := hc.represents.unique hS'.represents
    exact ⟨_, _, t, hexist, hS', redBlack_create h hrb v⟩
  | nil =>
    cases gs with
    | nil =>
      have hfill := fill_descend S.val v t []
      simp only [hd, fill_nil] at hfill
      subst hfill
      obtain ⟨S', hins, hS', hblack⟩ := holding_first fuel h v
      exact ⟨_, S', _, hins, hS', redBlack_leaf hblack⟩
    | cons f gs =>
      obtain ⟨S', t', hins, hS', hrb'⟩ := redBlack_below h hrb hfuel hsame hv
      exact ⟨_, S', t', hins, hS', hrb'⟩

theorem redBlack_insertNodes {ws : List α} (h : Holding S vs t) (hrb : RedBlack S.red t)
    (hfuel : vs.length + ws.length < fuel) (hrun : straightRun fuel ws S = true) :
    ∃ S' t', RBTree.insertNodes fuel ws S = some S' ∧ S'.Represents t' ∧ RedBlack S'.red t' := by
  induction ws generalizing S vs t with
  | nil => exact ⟨S, t, rfl, h.represents, hrb⟩
  | cons w ws ih =>
    rw [List.length_cons] at hfuel
    have hw : vs.length < fuel := by omega
    rw [straightRun, Bool.and_eq_true] at hrun
    obtain ⟨r, S', t', hins, hS', hrb'⟩ := redBlack_insertNode h hrb hw hrun.1
    rw [hins] at hrun
    rw [RBTree.insertNodes, hins, Option.bind_some]
    apply ih hS' hrb' _ hrun.2
    rw [List.length_append, List.length_singleton]
    omega

/-- Statements that never meet a node on the other side than its parent build a red-black tree. -/
theorem insertNodes_redBlack [Inhabited α] (vs : List α)
    (hrun : straightRun (vs.length + 1) vs (.empty : RBTree α) = true) :
    ∃ (S : RBTree α) (t : BinaryTree ℕ), RBTree.insertNodes (vs.length + 1) vs .empty = some S ∧
      S.Represents t ∧ RedBlack S.red t ∧ t.height ≤ 2 * Nat.log 2 (t.numNodes + 1) := by
  have hnil : RedBlack (RBTree.empty : RBTree α).red .nil := ⟨by simp, trivial, 0, rfl⟩
  obtain ⟨S, t, hins, ht, hrb⟩ := redBlack_insertNodes holding_empty hnil (by simp) hrun
  exact ⟨S, t, hins, ht, hrb, hrb.height_le⟩

/-- The node `2` comes in on the left of `3`, which is on the right of the root: the code takes `3`
for its own sibling, makes it black, and leaves the root with a black child on one side only. -/
theorem zigzag_unbalances : ∃ (S : RBTree ℕ) (t : BinaryTree ℕ),
    RBTree.insertNodes 4 [1, 3, 2] .empty = some S ∧ S.Represents t ∧ ¬ RedBlack S.red t := by
  have hfuel : ([] : List ℕ).length + [1, 3, 2].length < 4 := by decide
  obtain ⟨S, t, hins, h⟩ := holding_insertNodes holding_empty hfuel
  have hcalc : (RBTree.insertNodes 4 [1, 3, 2] (.empty : RBTree ℕ)).map
      (fun S => (S.toTree S.next S.root, S.red 1)) =
      some (.node 0 .nil (.node 1 (.node 2 .nil .nil) .nil), false) := by rfl
  rw [hins, Option.map_some, h.toTree_eq, Option.some.injEq, Prod.mk.injEq] at hcalc
  obtain ⟨rfl, hblack⟩ := hcalc
  refine ⟨S, _, hins, h.represents, ?_⟩
  rintro ⟨-, -, n, m, hl, ⟨k, -, -, hr⟩, -⟩
  have hm : m = 0 := hl
  rw [weight_of_black hblack] at hr
  omega

end Run

section Returning

variable {α : Type*} [LinearOrder α] {S : RBTree α} {vs : List α} {t : BinaryTree ℕ}

/-- A tree of one value has one node. -/
theorem Holding.redBlack (h : Holding S vs t) (heq : AllEqual vs) : RedBlack S.red t := by
  cases t with
  | nil => exact ⟨by simp, trivial, 0, rfl⟩
  | node a l r =>
    have hvs (x : ℕ) (hx : x ∈ inorder (.node a l r)) : S.val x ∈ vs :=
      (h.keys _).mp (List.mem_map_of_mem hx)
    have hord := h.ordered
    rw [Ordered, inorder_node, List.pairwise_append, List.pairwise_cons] at hord
    obtain ⟨-, ⟨hr, -⟩, hl⟩ := hord
    -- a child would hold a smaller or a greater value
    have hleft : l = .nil := by
      cases l with
      | nil => rfl
      | node b _ _ =>
        have hlt := hl b (by simp) a (by simp)
        exact absurd (heq _ (hvs b (by simp)) _ (hvs a (by simp))) hlt.ne
    have hright : r = .nil := by
      cases r with
      | nil => rfl
      | node b _ _ =>
        have hlt := hr b (by simp)
        exact absurd (heq _ (hvs a (by simp)) _ (hvs b (by simp))) hlt.ne
    subst hleft hright
    exact redBlack_leaf (h.rootBlack a h.represents.root_eq)

/-- Every call of the run comes back, and the tree is then a red-black tree of small depth. -/
def BuildsRedBlack [Inhabited α] (vs : List α) : Prop :=
  ∃ fuel S t, RBTree.inserts fuel vs (.empty : RBTree α) = some S ∧ S.Represents t ∧
    RedBlack S.red t ∧ t.height ≤ 2 * Nat.log 2 (t.numNodes + 1)

theorem buildsRedBlack_iff [Inhabited α] (vs : List α) : BuildsRedBlack vs ↔ AllEqual vs := by
  constructor
  · rintro ⟨fuel, S, t, hrun, -⟩
    exact (holding_of_inserts holding_empty nofun hrun).1
  · intro heq
    have hfuel : ([] : List α).length + vs.length < vs.length + 1 := by simp
    obtain ⟨S, t, hrun, h⟩ := holding_inserts holding_empty hfuel heq
    have hrb := h.redBlack heq
    exact ⟨_, S, t, hrun, h.represents, hrb, hrb.height_le⟩

/-- Nothing is left to be balanced once a second value has come in. -/
theorem second_value_unbalanced : ¬ BuildsRedBlack [1, 2] := by
  rintro ⟨fuel, S, t, hrun, -⟩
  have heq := (holding_of_inserts holding_empty nofun hrun).1
  exact absurd (heq 1 (by decide) 2 (by decide)) (by decide)

end Returning

end MgRaffle.RbTree
