import MgRaffle.Library.SearchTree
import MgRaffle.RbTree.Rebalance

namespace MgRaffle.RbTree

open LinkedTree

variable {ι : Type*}

/-- `mg_rb_tree`, with the nodes that are outside of it as well: they carry their own links. -/
structure MgRbTree (ι : Type*) extends Nodes ι where
  count : UInt64
  compare : ι → ι → ℤ

namespace MgRbTree

def withNodes (T : MgRbTree ι) (N : Nodes ι) : MgRbTree ι := { T with toNodes := N }

def searchTurn (node : ι) (insertPosition : Bool) (T : MgRbTree ι) :
    Option ι → Option (Option ι ⊕ Option ι)
  | none =>
    let p : Option ι := none
    some (.inr (if insertPosition then p else none))
  | some p =>
    let ret := T.compare node p
    if ret > 0 then some (.inl (T.child .left p))
    else if ret < 0 then some (.inl (T.child .right p))
    else some (.inr (some p))

def searchRbNode (fuel : ℕ) (node : ι) (T : MgRbTree ι) (insertPosition : Bool) :
    Option (Option ι) :=
  Looping.loop (searchTurn node insertPosition T) fuel T.root

variable [DecidableEq ι]

/-- The node is put where an empty tree has its root. -/
def rootOnly (node : ι) (T : MgRbTree ι) : MgRbTree ι :=
  { T.withNodes ((T.withLinks (T.setRoot (some node))).setType node .black) with
    count := T.count + 1 }

def insertRbNode (fuel : ℕ) (node : ι) (T : MgRbTree ι) : Option (MgRbTree ι) := do
  match ← searchRbNode fuel node T true with
  | none => return rootOnly node T
  | some p =>
    let ret := T.compare node p
    if ret = 0 then return T
    else
      let side := if ret > 0 then Side.left else Side.right
      let N ← Looping.loop (rebalanceTurn false) fuel
        (node, T.withLinks (T.setChild side p (some node)))
      let root ← N.root
      return { T.withNodes (N.setType root .black) with count := T.count + 1 }

end MgRbTree

open MgRbTree

section Search

variable {κ : Type*} [LinearOrder κ] {key : ι → κ} {T : MgRbTree ι} {t : BinaryTree ι} {node a : ι}
  {insertPosition : Bool} {fuel : ℕ}

/-- The sign that `mg_rb_node_compare` has to give, for some order of keys. -/
structure Compares (key : ι → κ) (compare : ι → ι → ℤ) : Prop where
  pos_iff : ∀ l r, 0 < compare l r ↔ key l < key r
  neg_iff : ∀ l r, compare l r < 0 ↔ key r < key l

/-- A red-black search tree. -/
structure Searchable (key : ι → κ) (T : MgRbTree ι) (t : BinaryTree ι) : Prop where
  represents : T.Represents t
  compares : Compares key T.compare
  ordered : Ordered key t
  redBlack : RedBlack T.red t

theorem Searchable.search_eq (h : Searchable key T t) (node : ι) (insertPosition : Bool)
    (hfuel : t.height < fuel) :
    T.searchRbNode fuel node insertPosition = some (rootOf (descend key (key node) [] t).2) := by
  rw [MgRbTree.searchRbNode, h.represents.root_eq]
  apply loop_descend (fun _ t => rootOf t) (fun _ t => rootOf t) _ _ rfl hfuel
  · intro gs hw
    simp [MgRbTree.searchTurn, rootOf]
  · intro gs a l r hw
    have hrep : T.Represents (fill gs (.node a l r)) := by
      rw [hw]
      exact h.represents
    have hpos := h.compares.pos_iff node a
    have hneg := h.compares.neg_iff node a
    split_ifs with hlt hgt
    · rw [← hrep.child_node.1]
      exact if_pos (hpos.mpr hlt)
    · rw [← hrep.child_node.2]
      exact (if_neg (hpos.not.mpr hlt)).trans (if_pos (hneg.mpr hgt))
    · exact (if_neg (hpos.not.mpr hlt)).trans (if_neg (hneg.not.mpr hgt))

/-- Whatever the search is told, it has no result but the node that has the key. -/
theorem Searchable.search_of_some {res : Option ι} (h : Searchable key T t)
    (hres : T.searchRbNode fuel node insertPosition = some res) :
    res = rootOf (descend key (key node) [] t).2 :=
  Looping.loop_unique hres (h.search_eq node insertPosition (Nat.lt_succ_self _))

theorem Searchable.search_absent (h : Searchable key T t)
    (hkey : ¬ ∃ x ∈ inorder t, key x = key node) :
    rootOf (descend key (key node) [] t).2 = none := by
  rw [exists_key_iff h.ordered, not_not] at hkey
  rw [hkey]
  rfl

end Search

section Insert

variable {κ : Type*} [LinearOrder κ] [DecidableEq ι] {key : ι → κ} {T T' : MgRbTree ι}
  {t : BinaryTree ι} {node : ι} {fuel : ℕ}

/-- What `init_rb_node` leaves behind. -/
structure Initialised (T : MgRbTree ι) (node : ι) : Prop where
  red : T.red node = true
  parent : T.parent node = none
  child : ∀ d, T.child d node = none

/-- `insert_rb_node` ends; it leaves the tree alone if the key is there already, and adds the node
otherwise. -/
def InsertKeeps (key : ι → κ) (T : MgRbTree ι) (t : BinaryTree ι) (node : ι) : Prop :=
  ∃ fuel T', T.insertRbNode fuel node = some T' ∧
    ((∃ x ∈ inorder t, key x = key node) → T' = T) ∧
    ((¬ ∃ x ∈ inorder t, key x = key node) → ∃ t', Searchable key T' t' ∧
      ∀ x, x ∈ inorder t' ↔ x = node ∨ x ∈ inorder t)

theorem Searchable.insert_present (h : Searchable key T t) (hfuel : t.height < fuel)
    (hkey : ∃ x ∈ inorder t, key x = key node) : T.insertRbNode fuel node = some T := by
  have hfound := (exists_key_iff h.ordered).mp hkey
  cases hd : (descend key (key node) [] t).2 with
  | nil => exact absurd hd hfound
  | node a l r =>
    have hsearch := h.search_eq node true hfuel
    rw [hd] at hsearch
    have heq : T.compare node a = 0 := by
      have hka := descend_found hd
      have hpos := (h.compares.pos_iff node a).not.mpr hka.le.not_gt
      have hneg := (h.compares.neg_iff node a).not.mpr hka.ge.not_gt
      omega
    rw [MgRbTree.insertRbNode, hsearch]
    exact if_pos heq

/-- The search has no place for a key that is not there, so that the code takes the tree for an
empty one. -/
theorem insertRbNode_none (h : T.searchRbNode fuel node true = some none) :
    T.insertRbNode fuel node = some (rootOnly node T) := by
  rw [MgRbTree.insertRbNode, h]
  rfl

theorem rootOnly_represents (hinit : Initialised T node) :
    (rootOnly node T).Represents (.node node .nil .nil) :=
  ⟨⟨rfl, hinit.parent, hinit.child .left, hinit.child .right⟩, by simp⟩

theorem Searchable.insert_empty (h : Searchable key T .nil) (hinit : Initialised T node) :
    InsertKeeps key T .nil node := by
  refine ⟨1, rootOnly node T, insertRbNode_none (h.search_eq node true (by simp)), by simp, fun _ => ?_⟩
  refine ⟨.node node .nil .nil, ⟨rootOnly_represents hinit, h.compares, ?_, ?_⟩, by simp⟩
  · simp [Ordered]
  · exact redBlack_leaf (by simp [rootOnly, MgRbTree.withNodes])

/-- The old root is lost. -/
theorem Searchable.not_insertKeeps (h : Searchable key T t) (hinit : Initialised T node)
    (ht : T.root ≠ none) (hkey : ¬ ∃ x ∈ inorder t, key x = key node) :
    ¬ InsertKeeps key T t node := by
  rintro ⟨fuel, T', hins, -, hnew⟩
  obtain ⟨t', ht', hmem⟩ := hnew hkey
  have hsearch : T.searchRbNode fuel node true = some none := by
    cases hs : T.searchRbNode fuel node true with
    | none =>
      rw [MgRbTree.insertRbNode, hs] at hins
      cases hins
    | some res => rw [h.search_of_some hs, h.search_absent hkey]
  rw [insertRbNode_none hsearch, Option.some.injEq] at hins
  subst hins
  obtain rfl : .node node .nil .nil = t' := (rootOnly_represents hinit).unique ht'.represents
  obtain ⟨r, hr⟩ := Option.ne_none_iff_exists'.mp ht
  have hrt : r ∈ inorder t := rootOf_mem (h.represents.root_eq.symm.trans hr)
  have hrn : r = node := by simpa using (hmem r).mpr (Or.inr hrt)
  exact hkey ⟨r, hrt, congrArg key hrn⟩

/-- An insertion keeps everything exactly if the tree is empty or has the key already. -/
theorem insertKeeps_iff (h : Searchable key T t) (hinit : Initialised T node) :
    InsertKeeps key T t node ↔ T.root = none ∨ ∃ x ∈ inorder t, key x = key node := by
  constructor
  · intro hins
    by_contra hor
    rw [not_or] at hor
    exact h.not_insertKeeps hinit hor.1 hor.2 hins
  · rintro (hroot | hkey)
    · cases t with
      | nil => exact h.insert_empty hinit
      | node a l r =>
        rw [h.represents.root_eq] at hroot
        cases hroot
    · exact ⟨_, T, h.insert_present (Nat.lt_succ_self _) hkey, fun _ => rfl, absurd hkey⟩

/-- A tree of the one node `0`, with the addresses for keys. -/
def oneNode : MgRbTree ℕ where
  parent _ := none
  child _ _ := none
  root := some 0
  type a := if a = 0 then .black else .red
  count := 1
  compare l r := r - l

theorem oneNode_searchable : Searchable id oneNode (.node 0 .nil .nil) where
  represents := ⟨⟨rfl, rfl, rfl, rfl⟩, by decide⟩
  compares := ⟨fun l r => by simp [oneNode], fun l r => by simp [oneNode]⟩
  ordered := by simp [Ordered]
  redBlack := redBlack_leaf rfl

theorem oneNode_initialised {a : ℕ} (ha : a ≠ 0) : Initialised oneNode a where
  red := by simp [Nodes.red, oneNode, ha]
  parent := rfl
  child _ := rfl

theorem insertKeeps_iff_oneNode : InsertKeeps id oneNode (.node 0 .nil .nil) 1 ↔
    oneNode.root = none ∨ ∃ x ∈ inorder (.node 0 .nil .nil), id x = id 1 :=
  insertKeeps_iff oneNode_searchable (oneNode_initialised (by decide))

theorem second_insert_loses_first : Searchable id oneNode (.node 0 .nil .nil) ∧
    Initialised oneNode 1 ∧ ¬ InsertKeeps id oneNode (.node 0 .nil .nil) 1 :=
  ⟨oneNode_searchable, oneNode_initialised (by decide),
    oneNode_searchable.not_insertKeeps (oneNode_initialised (by decide)) nofun (by simp)⟩

end Insert

end MgRaffle.RbTree
