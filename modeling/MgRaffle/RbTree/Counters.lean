import MgRaffle.RbTree.Delete
import MgRaffle.RbTree.Ordered

namespace MgRaffle.RbTree

open LinkedTree

section Code

namespace RBTree

variable {α : Type*}

def deleteLeafNode (leaf : ℕ) (S : RBTree α) : Option (RBTree α) :=
  let S := { S with count := S.count - 1 }
  (RbTree.deleteLeafNode leaf S.toNodes).map S.withNodes

/-- A turn of the loop in `del` below the node `p`. Where it goes on, it leaves the sibling as black as
it is; it has no result once it puts the number `RBBlackNode` into a child pointer. -/
def fixSide (d : Side) (p : ℕ) (N : Nodes ℕ) :
    Option ((ℕ × Option ℕ × Nodes ℕ) ⊕ (ℕ × Nodes ℕ)) := do
  let b ← N.child d.other p
  let (b, N) ← blackenSibling d p b N
  if noneOrBlack N (N.child .left b) && noneOrBlack N (N.child .right b) then
    return .inl (p, N.parent p, N.setType b .black)
  else
    let _ ← reddenOuter d p b N
    -- `b->_rchild = RBBlackNode`, or `b->_lchild`
    none

def delTurn : ℕ × Option ℕ × Nodes ℕ → Option ((ℕ × Option ℕ × Nodes ℕ) ⊕ (ℕ × Nodes ℕ))
  | (node, p, N) =>
    if N.red node ∨ N.root = some node then some (.inr (node, N))
    else do
      let p ← p
      if N.child .left p = some node then fixSide .left p N else fixSide .right p N

/-- `del` from where the node `d` has at most one child. -/
def unlinkNode (fuel : ℕ) (d : ℕ) (S : RBTree α) : Option (RBTree α) :=
  let moved (c : ℕ) :=
    (changeRbNode d c true S.toNodes).bind fun N => deleteLeafNode d (S.withNodes N)
  if S.red d then deleteLeafNode d S
  else match S.child .left d, S.child .right d with
    | some l, _ => moved l
    | none, some r => moved r
    | none, none =>
      (Looping.loop delTurn fuel (d, S.parent d, S.toNodes)).bind fun q =>
        deleteLeafNode d (S.withNodes (q.2.setType q.1 .black))

def del [LinearOrder α] (fuel : ℕ) (v : α) (S : RBTree α) : Option (RBTree α) :=
  (S.search fuel v).bind fun
  | none => some S
  | some d =>
    if S.child .left d ≠ none ∧ S.child .right d ≠ none then
      (findRightReplaceNode fuel d S.toNodes).bind fun r =>
        (changeRbNode d r true S.toNodes).bind fun N => unlinkNode fuel d (S.withNodes N)
    else unlinkNode fuel d S

end RBTree

/-- An operation on either of the two trees. -/
inductive Op (κ : Type*)
  | insert (k : κ)
  | delete (k : κ)
  deriving DecidableEq, Repr

def RBTree.perform {α : Type*} [LinearOrder α] (fuel : ℕ) (S : RBTree α) :
    Op α → Option (RBTree α)
  | .insert v => (S.insert fuel v).map Prod.snd
  | .delete v => S.del fuel v

variable {ι : Type*}

def initRbTree (compare : ι → ι → ℤ) (T : MgRbTree ι) : MgRbTree ι :=
  { T with root := none, count := 0, compare := compare }

/-- A node comes from `init_rb_node`. -/
def MgRbTree.perform [DecidableEq ι] (fuel : ℕ) (T : MgRbTree ι) : Op ι → Option (MgRbTree ι)
  | .insert node => (T.withNodes (T.init node)).insertRbNode fuel node
  | .delete dnode => T.deleteRbNode fuel dnode

end Code

section Count

variable {σ ε ι : Type*}

/-- The counter says how many nodes can be reached from the root. -/
def Exact (N : Nodes ι) (count : UInt64) : Prop := N.toLinks.reachable.encard = count.toNat

/-- A decrement has taken the counter below zero. -/
def Wraps (count count' : UInt64) : Prop := count = 0 ∧ count' = 0 - 1

variable (step : σ → ε → Option σ) (nodes : σ → Nodes ι) (count : σ → UInt64)

/-- The operations end, with the counter exact before and after each one, and none lets it wrap. -/
def Counted : σ → List ε → Prop
  | s, [] => Exact (nodes s) (count s)
  | s, e :: es => Exact (nodes s) (count s) ∧
    ∃ s', step s e = some s' ∧ ¬ Wraps (count s) (count s') ∧ Counted s' es

variable {step nodes count} {s s' : σ} {e : ε} {es : List ε}

theorem Counted.head (h : Counted step nodes count s es) : Exact (nodes s) (count s) := by
  cases es with
  | nil => exact h
  | cons e es => exact h.1

theorem Counted.next (h : Counted step nodes count s (e :: es)) :
    ∃ s', step s e = some s' ∧ Exact (nodes s') (count s') ∧ Counted step nodes count s' es := by
  obtain ⟨-, s', hs', -, hes⟩ := h
  exact ⟨s', hs', hes.head, hes⟩

theorem Counted.cons (hs : Exact (nodes s) (count s)) (hstep : step s e = some s')
    (hwrap : count s' ≤ 1) (h : Counted step nodes count s' es) :
    Counted step nodes count s (e :: es) := by
  refine ⟨hs, s', hstep, ?_, h⟩
  intro hwraps
  rw [hwraps.2] at hwrap
  revert hwrap
  decide

theorem exact_iff {N : Nodes ι} {t : BinaryTree ι} {c : UInt64} (h : N.Represents t) :
    Exact N c ↔ t.numNodes = c.toNat := by
  rw [Exact, h.encard_reachable]
  exact Nat.cast_inj

end Count

section MgRbTree

variable {ι κ : Type*} [LinearOrder κ] {key : ι → κ} {compare : ι → ι → ℤ} {T T' : MgRbTree ι}
  {o : Option ι} {a b : ι} {fuel : ℕ} {ops : List (Op ι)}

/-- Once the node `o` is in the tree, no other key is inserted, and that key is not deleted. -/
def oneKey (key : ι → κ) : Option ι → List (Op ι) → Bool
  | _, [] => true
  | none, .insert a :: ops => oneKey key (some a) ops
  | none, .delete _ :: ops => oneKey key none ops
  | some a, .insert b :: ops => key b = key a && oneKey key (some a) ops
  | some a, .delete b :: ops => key b ≠ key a && oneKey key (some a) ops

/-- The tree has the node `o` alone, or none. -/
structure Single (compare : ι → ι → ℤ) (T : MgRbTree ι) (o : Option ι) : Prop where
  compare : T.compare = compare
  root : T.root = o
  parent : ∀ a ∈ o, T.parent a = none
  child : ∀ a ∈ o, ∀ d, T.child d a = none

theorem Single.exact_iff (h : Single compare T o) :
    Exact T.toNodes T.count ↔ T.count = if o.isSome then 1 else 0 := by
  cases o with
  | none =>
    have hrep : T.Represents .nil := ⟨h.root, List.nodup_nil⟩
    rw [RbTree.exact_iff hrep, ← UInt64.toNat_inj]
    exact eq_comm
  | some a =>
    have hrep : T.Represents (.node a .nil .nil) :=
      ⟨⟨h.root, h.parent a rfl, h.child a rfl .left, h.child a rfl .right⟩, by simp⟩
    rw [RbTree.exact_iff hrep, ← UInt64.toNat_inj]
    exact eq_comm

theorem Compares.eq_zero_iff (h : Compares key compare) : compare a b = 0 ↔ key a = key b := by
  have hpos := h.pos_iff a b
  have hneg := h.neg_iff a b
  constructor
  · intro hzero
    apply le_antisymm
    · exact not_lt.mp (hneg.not.mp (by omega))
    · exact not_lt.mp (hpos.not.mp (by omega))
  · intro hkey
    have hpos' := hpos.not.mpr hkey.ge.not_gt
    have hneg' := hneg.not.mpr hkey.le.not_gt
    omega

theorem Single.search (hcmp : Compares key compare) (h : Single compare T o) (b : ι) (place : Bool) :
    T.searchRbNode 2 b place = some (o.filter fun a => key b = key a) := by
  rw [MgRbTree.searchRbNode, h.root]
  cases o with
  | none => cases place <;> rfl
  | some a =>
    have hend (d : Side) : Looping.loop (MgRbTree.searchTurn b place T) 1 (T.child d a) = some none := by
      rw [h.child a rfl d]
      cases place <;> rfl
    have hzero := hcmp.eq_zero_iff (a := b) (b := a)
    rw [← h.compare] at hzero
    by_cases hkey : key b = key a
    · have hturn : MgRbTree.searchTurn b place T (some a) = some (.inr (some a)) := by
        simp [MgRbTree.searchTurn, hzero.mpr hkey]
      have hsome : (some a).filter (fun a => decide (key b = key a)) = some a :=
        if_pos (decide_eq_true hkey)
      rw [Looping.loop_inr hturn, hsome]
    · have hne : T.compare b a ≠ 0 := hzero.not.mpr hkey
      have hnone : (some a).filter (fun a => decide (key b = key a)) = none := by simp [hkey]
      rw [hnone]
      by_cases hpos : T.compare b a > 0
      · have hturn : MgRbTree.searchTurn b place T (some a) = some (.inl (T.child .left a)) :=
          if_pos hpos
        rw [Looping.loop_inl hturn, hend]
      · have hneg : T.compare b a < 0 := by omega
        have hturn : MgRbTree.searchTurn b place T (some a) = some (.inl (T.child .right a)) :=
          (if_neg hpos).trans (if_pos hneg)
        rw [Looping.loop_inl hturn, hend]

theorem Single.search_eq (hcmp : Compares key compare) (h : Single compare T o) {place : Bool}
    {res : Option ι} (hres : T.searchRbNode fuel b place = some res) :
    res = o.filter fun a => key b = key a :=
  Looping.loop_unique hres (h.search hcmp b place)

theorem single_init (compare : ι → ι → ℤ) (T : MgRbTree ι) :
    Single compare (initRbTree compare T) none := ⟨rfl, rfl, nofun, nofun⟩

variable [DecidableEq ι]

theorem Single.init (h : Single compare T o) (b : ι) :
    Single compare (T.withNodes (T.init b)) o where
  compare := h.compare
  root := h.root
  parent a ha := by
    have hold := h.parent a ha
    simp [MgRbTree.withNodes, Nodes.init, hold]
  child a ha d := by
    have hold := h.child a ha
    cases d <;> simp [MgRbTree.withNodes, Nodes.init, hold]

theorem Single.rootOnly (h : T.compare = compare) (b : ι) :
    Single compare (MgRbTree.rootOnly b (T.withNodes (T.init b))) (some b) where
  compare := h
  root := rfl
  parent a ha := by
    cases ha
    simp [MgRbTree.rootOnly, MgRbTree.withNodes, Nodes.init]
  child a ha d := by
    cases ha
    cases d <;> simp [MgRbTree.rootOnly, MgRbTree.withNodes, Nodes.init]

theorem removeNode_only {N N' : Nodes ι} (hroot : N.root = some a) (hchild : ∀ d, N.child d a = none)
    (hN' : removeNode fuel a N = some N') : N'.root = none := by
  have hgone {N₁ N₂ : Nodes ι} (hroot₁ : N₁.root = some a) (hN₂ : deleteLeafNode a N₁ = some N₂) :
      N₂.root = none := by
    rw [deleteLeafNode, if_pos hroot₁] at hN₂
    cases hN₂
    rfl
  have hleft := hchild .left
  have hright := hchild .right
  simp only [removeNode, hleft, hright, ne_eq, not_true_eq_false, false_and, if_false] at hN'
  rw [unlinkNode, hleft, hright] at hN'
  split_ifs at hN' with hred
  · exact hgone hroot hN'
  · obtain ⟨q, hq, hdel⟩ := Option.bind_eq_some_iff.mp hN'
    have hturn : fixTurn (a, N.parent a, N) = some (.inr (a, N)) := if_pos (Or.inr hroot)
    have hone := Looping.loop_inr (n := 0) hturn
    cases Looping.loop_unique hq hone
    have hroot₁ : (N.setType a .black).root = some a := hroot
    exact hgone hroot₁ hdel

/-- What an insertion comes to. -/
theorem Single.insert_eq (hcmp : Compares key compare) (h : Single compare T o)
    (hT' : T.perform fuel (.insert b) = some T') :
    (∃ a ∈ o, key b = key a ∧ T' = T.withNodes (T.init b)) ∨
      (∀ a ∈ o, key b ≠ key a) ∧ T' = MgRbTree.rootOnly b (T.withNodes (T.init b)) := by
  have hinit := h.init b
  rw [MgRbTree.perform, MgRbTree.insertRbNode] at hT'
  obtain ⟨res, hsearch, hT'⟩ := Option.bind_eq_some_iff.mp hT'
  have hres := hinit.search_eq hcmp hsearch
  cases res with
  | none =>
    cases hT'
    refine Or.inr ⟨?_, rfl⟩
    intro a ha hkey
    rw [ha] at hres
    simp [Option.filter, hkey] at hres
  | some p =>
    have hp := Option.filter_eq_some_iff.mp hres.symm
    have hkey : key b = key p := of_decide_eq_true hp.2
    have hzero : T.compare b p = 0 := by
      rw [h.compare]
      exact hcmp.eq_zero_iff.mpr hkey
    refine Or.inl ⟨p, hp.1, hkey, ?_⟩
    have hstop : some (T.withNodes (T.init b)) = some T' := (if_pos hzero).symm.trans hT'
    exact (Option.some.inj hstop).symm

theorem Single.delete_eq (hcmp : Compares key compare) (h : Single compare T o)
    (hT' : T.perform fuel (.delete b) = some T') :
    ((∀ a ∈ o, key b ≠ key a) ∧ T' = T) ∨
      ∃ a ∈ o, key b = key a ∧ T'.root = none ∧ T'.count = T.count := by
  rw [MgRbTree.perform, MgRbTree.deleteRbNode] at hT'
  obtain ⟨res, hsearch, hT'⟩ := Option.bind_eq_some_iff.mp hT'
  have hres := h.search_eq hcmp hsearch
  cases res with
  | none =>
    cases hT'
    refine Or.inl ⟨?_, rfl⟩
    intro a ha hkey
    rw [ha] at hres
    simp [Option.filter, hkey] at hres
  | some d =>
    have hd := Option.filter_eq_some_iff.mp hres.symm
    have hkey : key b = key d := of_decide_eq_true hd.2
    obtain ⟨N, hN, hT'⟩ := Option.bind_eq_some_iff.mp hT'
    cases hT'
    refine Or.inr ⟨d, hd.1, hkey, ?_, rfl⟩
    apply removeNode_only _ (h.child d hd.1) hN
    rw [h.root]
    exact hd.1

/-- Where the counter is exact all the way, the tree has one node at most. -/
theorem oneKey_of_counted (hcmp : Compares key compare) (h : Single compare T o)
    (hrun : Counted (MgRbTree.perform fuel) MgRbTree.toNodes MgRbTree.count T ops) :
    oneKey key o ops = true := by
  induction ops generalizing T o with
  | nil => cases o <;> rfl
  | cons e ops ih =>
    have hcount := h.exact_iff.mp hrun.head
    obtain ⟨T', hstep, hexact, hrest⟩ := hrun.next
    cases e with
    | insert b =>
      cases h.insert_eq hcmp hstep with
      | inl hpresent =>
        obtain ⟨a, ha, hkey, hT'⟩ := hpresent
        have hinit := h.init b
        cases ha
        rw [hT'] at hrest
        simpa [oneKey, hkey] using ih hinit hrest
      | inr habsent =>
        obtain ⟨hkey, hT'⟩ := habsent
        have hroot := Single.rootOnly h.compare b
        rw [hT'] at hrest hexact
        cases o with
        | none => exact ih hroot hrest
        | some a =>
          -- the old root is lost, and the counter is one too high
          have htwo := hroot.exact_iff.mp hexact
          have hone : T.count = 1 := hcount
          have hsum : T.count + 1 = 1 := htwo
          rw [hone] at hsum
          exact absurd hsum (by decide)
    | delete b =>
      cases h.delete_eq hcmp hstep with
      | inl habsent =>
        obtain ⟨hkey, hT'⟩ := habsent
        rw [hT'] at hrest
        have hops := ih h hrest
        cases o with
        | none => exact hops
        | some a => simpa [oneKey, hkey a rfl] using hops
      | inr hpresent =>
        obtain ⟨a, ha, -, hroot, hsame⟩ := hpresent
        cases ha
        have hempty : Single T'.compare T' none := ⟨rfl, hroot, nofun, nofun⟩
        have hzero : T'.count = 0 := hempty.exact_iff.mp hexact
        have hone : T.count = 1 := hcount
        rw [hsame, hone] at hzero
        exact absurd hzero (by decide)

theorem Single.insert_first (hcmp : Compares key compare) (h : Single compare T none) (b : ι) :
    T.perform 2 (.insert b) = some (MgRbTree.rootOnly b (T.withNodes (T.init b))) :=
  insertRbNode_none ((h.init b).search hcmp b true)

theorem Single.insert_again (hcmp : Compares key compare) (h : Single compare T (some a))
    (hkey : key b = key a) : T.perform 2 (.insert b) = some (T.withNodes (T.init b)) := by
  have hsearch := (h.init b).search hcmp b true
  have hzero : T.compare b a = 0 := by
    rw [h.compare]
    exact hcmp.eq_zero_iff.mpr hkey
  have hsome : (some a).filter (fun a => decide (key b = key a)) = some a :=
    Option.filter_some_pos (decide_eq_true hkey)
  rw [MgRbTree.perform, MgRbTree.insertRbNode, hsearch, hsome]
  exact if_pos hzero

theorem Single.delete_other (hcmp : Compares key compare) (h : Single compare T o)
    (hkey : ∀ a ∈ o, key b ≠ key a) : T.perform 2 (.delete b) = some T := by
  have hsearch := h.search hcmp b false
  have hnone : o.filter (fun a => decide (key b = key a)) = none := by
    cases o with
    | none => rfl
    | some a => exact Option.filter_some_neg (decide_eq_false (hkey a rfl))
  rw [MgRbTree.perform, MgRbTree.deleteRbNode, hsearch, hnone]
  rfl

theorem counted_of_oneKey (hcmp : Compares key compare) (h : Single compare T o)
    (hcount : T.count = if o.isSome then 1 else 0) (hops : oneKey key o ops = true) :
    Counted (MgRbTree.perform 2) MgRbTree.toNodes MgRbTree.count T ops := by
  have hexact := h.exact_iff.mpr hcount
  have hle : T.count ≤ 1 := by
    rw [hcount]
    split_ifs <;> decide
  induction ops generalizing T o with
  | nil => exact hexact
  | cons e ops ih =>
    cases e with
    | insert b =>
      cases o with
      | none =>
        have hroot := Single.rootOnly h.compare b
        have hzero : T.count = 0 := hcount
        have hone : T.count + 1 = 1 := by
          rw [hzero]
          decide
        have hle' : T.count + 1 ≤ 1 := by
          rw [hone]
          decide
        apply Counted.cons hexact (h.insert_first hcmp b) hle'
        exact ih hroot hone hops (hroot.exact_iff.mpr hone) hle'
      | some a =>
        have hkey : key b = key a ∧ oneKey key (some a) ops = true := by simpa [oneKey] using hops
        have hinit := h.init b
        apply Counted.cons hexact (h.insert_again hcmp hkey.1) hle
        exact ih hinit hcount hkey.2 (hinit.exact_iff.mpr hcount) hle
    | delete b =>
      have hkey : (∀ a ∈ o, key b ≠ key a) ∧ oneKey key o ops = true := by
        cases o with
        | none => exact ⟨nofun, hops⟩
        | some a => simpa [oneKey] using hops
      apply Counted.cons hexact (h.delete_other hcmp hkey.1) hle
      exact ih h hcount hkey.2 hexact hle

end MgRbTree

section RBTree

variable {α : Type*} [LinearOrder α] {S S' : RBTree α} {v : α} {d fuel : ℕ} {ops : List (Op α)}

omit [LinearOrder α] in
theorem RBTree.deleteLeafNode_count (h : S.deleteLeafNode d = some S') : S'.count = S.count - 1 := by
  obtain ⟨N, -, hS'⟩ := Option.map_eq_some_iff.mp h
  rw [← hS']
  rfl

omit [LinearOrder α] in
theorem RBTree.unlinkNode_count (h : S.unlinkNode fuel d = some S') : S'.count = S.count - 1 := by
  unfold RBTree.unlinkNode at h
  dsimp only at h
  split_ifs at h with hred
  · exact RBTree.deleteLeafNode_count h
  · split at h
    · obtain ⟨N, -, hdel⟩ := Option.bind_eq_some_iff.mp h
      have hcount := RBTree.deleteLeafNode_count hdel
      exact hcount
    · obtain ⟨N, -, hdel⟩ := Option.bind_eq_some_iff.mp h
      have hcount := RBTree.deleteLeafNode_count hdel
      exact hcount
    · obtain ⟨q, -, hdel⟩ := Option.bind_eq_some_iff.mp h
      have hcount := RBTree.deleteLeafNode_count hdel
      exact hcount

/-- Whichever way `del` returns, the counter goes down by one, or nothing is found and nothing
changes. -/
theorem RBTree.del_count (h : S.del fuel v = some S') :
    S.search fuel v = some none ∧ S' = S ∨ S'.count = S.count - 1 := by
  obtain ⟨res, hsearch, hS'⟩ := Option.bind_eq_some_iff.mp h
  cases res with
  | none =>
    cases hS'
    exact Or.inl ⟨hsearch, rfl⟩
  | some d =>
    apply Or.inr
    dsimp only at hS'
    split_ifs at hS' with hboth
    · obtain ⟨r, -, hS'⟩ := Option.bind_eq_some_iff.mp hS'
      obtain ⟨N, -, hS'⟩ := Option.bind_eq_some_iff.mp hS'
      have hcount := RBTree.unlinkNode_count hS'
      exact hcount
    · exact RBTree.unlinkNode_count hS'

/-- The tree is empty until the first insertion, which leaves the counter at zero. -/
theorem not_insert_of_counted (hroot : S.root = none) (hcount : S.count = 0)
    (hrun : Counted (RBTree.perform fuel) RBTree.toNodes RBTree.count S ops) (v : α) :
    .insert v ∉ ops := by
  induction ops with
  | nil => exact List.not_mem_nil
  | cons e ops ih =>
    obtain ⟨S', hstep, hexact, hrest⟩ := hrun.next
    cases e with
    | insert w =>
      rw [RBTree.perform, insert_empty hroot] at hstep
      cases hstep
      have hnew := createNode_new (S := S) (v := w)
      have hrep : ((((S.createNode w).withLinks ((S.createNode w).setRoot (some S.next))).setType S.next
          .black)).Represents (.node S.next .nil .nil) :=
        ⟨⟨rfl, hnew.2.1, hnew.2.2 .left, hnew.2.2 .right⟩, by simp⟩
      have hone : 1 = S.count.toNat := (exact_iff hrep).mp hexact
      rw [hcount] at hone
      exact absurd hone (by decide)
    | delete w =>
      cases fuel with
      | zero => cases hstep
      | succ n =>
        have hsearch : S.search (n + 1) w = some none := by
          rw [RBTree.search, hroot]
          rfl
        rw [RBTree.perform, RBTree.del, hsearch] at hstep
        cases hstep
        rw [List.mem_cons, not_or]
        exact ⟨nofun, ih hrest⟩

theorem counted_of_not_insert (hroot : S.root = none) (hcount : S.count = 0)
    (hops : ∀ v, .insert v ∉ ops) :
    Counted (RBTree.perform 1) RBTree.toNodes RBTree.count S ops := by
  have hrep : S.Represents .nil := ⟨hroot, List.nodup_nil⟩
  have hexact : Exact S.toNodes S.count := by
    rw [exact_iff hrep, hcount]
    rfl
  induction ops with
  | nil => exact hexact
  | cons e ops ih =>
    cases e with
    | insert w => exact absurd (List.mem_cons_self ..) (hops w)
    | delete w =>
      have hsearch : S.search 1 w = some none := by
        rw [RBTree.search, hroot]
        rfl
      have hstep : RBTree.perform 1 S (.delete w) = some S := by
        rw [RBTree.perform, RBTree.del, hsearch]
        rfl
      have hle : S.count ≤ 1 := by
        rw [hcount]
        decide
      apply Counted.cons hexact hstep hle
      exact ih fun v hv => hops v (List.mem_cons_of_mem _ hv)

end RBTree

section Theorem

variable {ι κ α : Type*} [DecidableEq ι] [LinearOrder κ] [LinearOrder α] [Inhabited α]
  {key : ι → κ} {compare : ι → ι → ℤ}

/-- The counter of `mg_rb_tree` is exact as long as the tree has one key at most, which stays; the
one of `RBTree` is until the first insertion. -/
theorem counted_iff (hcmp : Compares key compare) (T : MgRbTree ι) :
    (∀ ops : List (Op ι), (∃ fuel, Counted (MgRbTree.perform fuel) MgRbTree.toNodes MgRbTree.count
        (initRbTree compare T) ops) ↔ oneKey key none ops = true) ∧
      ∀ ops : List (Op α), (∃ fuel, Counted (RBTree.perform fuel) RBTree.toNodes RBTree.count
        RBTree.empty ops) ↔ ∀ v, .insert v ∉ ops := by
  constructor
  · intro ops
    constructor
    · intro hrun
      obtain ⟨fuel, hrun⟩ := hrun
      exact oneKey_of_counted hcmp (single_init compare T) hrun
    · intro hops
      exact ⟨2, counted_of_oneKey hcmp (single_init compare T) rfl hops⟩
  · intro ops
    constructor
    · intro hrun
      obtain ⟨fuel, hrun⟩ := hrun
      exact not_insert_of_counted rfl rfl hrun
    · intro hops
      exact ⟨1, counted_of_not_insert rfl rfl hops⟩

theorem compares_sub : Compares id fun l r : ℕ => (r : ℤ) - l :=
  ⟨fun l r => by simp, fun l r => by simp⟩

theorem counted_iff_same_key :
    (∃ fuel, Counted (MgRbTree.perform fuel) MgRbTree.toNodes MgRbTree.count
        (initRbTree (fun l r : ℕ => (r : ℤ) - l) oneNode)
        [.delete 7, .insert 5, .insert 5, .delete 7]) ∧
      ∃ fuel, Counted (RBTree.perform fuel) RBTree.toNodes RBTree.count
        (RBTree.empty : RBTree ℕ) [.delete 7] :=
  ⟨((counted_iff (α := ℕ) compares_sub oneNode).1 _).mpr (by decide),
    ((counted_iff (α := ℕ) compares_sub oneNode).2 _).mpr (by simp)⟩

theorem second_key_miscounted :
    (¬ ∃ fuel, Counted (MgRbTree.perform fuel) MgRbTree.toNodes MgRbTree.count
        (initRbTree (fun l r : ℕ => (r : ℤ) - l) oneNode) [.insert 5, .insert 7]) ∧
      (¬ ∃ fuel, Counted (RBTree.perform fuel) RBTree.toNodes RBTree.count
        (RBTree.empty : RBTree ℕ) [.insert 5]) ∧
      ((RBTree.perform 3 (RBTree.empty : RBTree ℕ) (.insert 5)).bind fun S =>
        (RBTree.perform 3 S (.delete 5)).map RBTree.count) = some (0 - 1) := by
  refine ⟨?_, ?_, rfl⟩
  · intro hrun
    obtain ⟨fuel, hrun⟩ := hrun
    have hops := oneKey_of_counted compares_sub (single_init _ oneNode) hrun
    exact absurd hops (by decide)
  · intro hrun
    obtain ⟨fuel, hrun⟩ := hrun
    exact not_insert_of_counted rfl rfl hrun 5 (List.mem_cons_self ..)

end Theorem

end MgRaffle.RbTree
