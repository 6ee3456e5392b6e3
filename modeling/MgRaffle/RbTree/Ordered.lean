import MgRaffle.RbTree.Insert

namespace MgRaffle.RbTree

open LinkedTree

variable {α : Type*} {S : RBTree α} {vs : List α} {v : α} {t : BinaryTree ℕ} {f : Frame ℕ}
  {fs : List (Frame ℕ)} {a : ℕ}

section Node

@[simp] theorem createNode_root : (S.createNode v).root = S.root := rfl

@[simp] theorem createNode_val : (S.createNode v).val S.next = v := Function.update_self ..

theorem createNode_links (h : a ≠ S.next) : (S.createNode v).parent a = S.parent a ∧
    ∀ d, (S.createNode v).child d a = S.child d a := by
  simp [RBTree.createNode, Nodes.init, h]

theorem createNode_red (h : a ≠ S.next) : (S.createNode v).red a = S.red a := by
  rw [RBTree.createNode, Nodes.init, Nodes.setType_red, if_neg h]
  rfl

theorem createNode_new : (S.createNode v).red S.next = true ∧
    (S.createNode v).parent S.next = none ∧ ∀ d, (S.createNode v).child d S.next = none := by
  refine ⟨by simp [RBTree.createNode, Nodes.init], by simp [RBTree.createNode, Nodes.init], ?_⟩
  intro d
  cases d <;> simp [RBTree.createNode, Nodes.init]

end Node

variable [LinearOrder α]

/-- The tree of `S` holds the values `vs`, each once, in order. -/
structure Holding (S : RBTree α) (vs : List α) (t : BinaryTree ℕ) : Prop where
  represents : S.Represents t
  ordered : Ordered S.val t
  keys : ∀ v, v ∈ (inorder t).map S.val ↔ v ∈ vs
  fresh : ∀ a ∈ inorder t, a < S.next
  rootBlack : ∀ r ∈ S.root, S.red r = false
  size : t.numNodes ≤ vs.length

theorem holding_empty [Inhabited α] : Holding (RBTree.empty : RBTree α) [] .nil where
  represents := ⟨rfl, List.nodup_nil⟩
  ordered := List.Pairwise.nil
  keys := by simp
  fresh := by simp
  rootBlack := by simp [RBTree.empty]
  size := le_rfl

theorem Holding.create (h : Holding S vs t) (v : α) :
    Holding (S.createNode v) vs t ∧ S.next ∉ inorder t := by
  have hne (a : ℕ) (ha : a ∈ inorder t) : a ≠ S.next := (h.fresh a ha).ne
  have hval (a : ℕ) (ha : a ∈ inorder t) : (S.createNode v).val a = S.val a :=
    Function.update_of_ne (hne a ha) ..
  refine ⟨⟨?_, ?_, ?_, ?_, ?_, h.size⟩, fun ha => hne _ ha rfl⟩
  · exact h.represents.congr rfl fun a ha => createNode_links (hne a ha)
  · apply List.Pairwise.imp_of_mem _ h.ordered
    intro a b ha hb hlt
    rwa [hval a ha, hval b hb]
  · intro w
    rw [List.map_congr_left hval, h.keys]
  · exact fun a ha => (h.fresh a ha).trans (Nat.lt_succ_self _)
  · intro r hr
    rw [createNode_root] at hr
    rw [createNode_red (hne r (rootOf_mem (h.represents.root_eq.symm.trans hr)))]
    exact h.rootBlack r hr

@[simp] theorem link_root : (S.link a f.id).root = S.root := by
  unfold RBTree.link
  split_ifs <;> rfl

theorem link_represents (h : S.Represents (fill (f :: fs) .nil))
    (haround : Around S.val v (f :: fs)) (hv : S.val a = v) (ha : a ∉ pathNodes (f :: fs))
    (hleaf : ∀ d, S.child d a = none) :
    (S.link a f.id).Represents (fill (f :: fs) (.node a .nil .nil)) := by
  subst hv
  have hfa : a ≠ f.id := by
    rintro rfl
    exact ha (mem_pathNodes_cons.mpr (Or.inl rfl))
  have hlink : (S.link a f.id).toLinks =
      (S.setParent a (some f.id)).setChild f.side f.id (some a) := by
    cases hs : f.side with
    | left => exact if_pos (haround.side.1 hs)
    | right => exact if_neg (haround.side.2 hs).asymm
  rw [hlink]
  apply h.graft ha
  · simp
  · intro e
    simp [hfa, hleaf]
  · simp
  · intro x hx
    have hxa : x ≠ a := by
      rintro rfl
      exact ha hx
    simp [hxa]
  · simp
  · intro x hx d hd
    simp [and_comm.not.mp hd]

section Insert

variable {fuel : ℕ} {L : Links ℕ}

theorem insertNode_empty (h : S.root = none) : S.insertNode fuel v = some (some 1,
    (S.createNode v).withNodes (((S.createNode v).withLinks ((S.createNode v).setRoot
      (some S.next))).setType S.next .black)) := by
  have hroot : (S.createNode v).root = none := h
  rw [RBTree.insertNode, hroot]

theorem insert_empty (h : S.root = none) : S.insert fuel v = some (1,
    (S.createNode v).withNodes (((S.createNode v).withLinks ((S.createNode v).setRoot
      (some S.next))).setType S.next .black)) := by
  rw [RBTree.insert, insertNode_empty h]
  rfl

theorem insertNode_exist {l r : BinaryTree ℕ} (h : (S.createNode v).Represents t)
    (hd : (descend (S.createNode v).val v [] t).2 = .node a l r) (hfuel : t.height < fuel) :
    S.insertNode fuel v = some (some (-1), S.createNode v) := by
  have hloop := RBTree.find_loop v [] h hfuel
  rw [hd] at hloop
  cases t with
  | nil => cases hd
  | node b l r =>
    have hroot : (S.createNode v).root = some b := h.root_eq
    simp only [RBTree.insertNode, hroot]
    exact Option.bind_eq_some_iff.mpr ⟨.exist, hloop, rfl⟩

theorem insertNode_below (h : (S.createNode v).Represents t)
    (hd : descend (S.createNode v).val v [] t = (f :: fs, .nil)) (hfuel : t.height < fuel) :
    S.insertNode fuel v =
      (Looping.loop (rebalanceTurn true) fuel
        (S.next, ((S.createNode v).link S.next f.id).toNodes)).bind fun N =>
      N.root.map fun root => (none, ((S.createNode v).link S.next f.id).withNodes
        (N.setType root .black)) := by
  have hloop := RBTree.find_loop v [] h hfuel
  rw [hd] at hloop
  cases t with
  | nil => cases hd
  | node b l r =>
    have hroot : (S.createNode v).root = some b := h.root_eq
    replace hloop : Looping.loop (RBTree.findTurn v (S.createNode v)) fuel (some b, none) =
        some (.below (some f.id)) := hloop
    simp only [RBTree.insertNode, hroot, hloop, Option.bind_some]

/-- The nodes of the tree and a new one between them may be arranged in any way. -/
theorem Holding.extend (fs : List (Frame ℕ)) {S' : RBTree α} {t' : BinaryTree ℕ}
    (h : Holding S vs (fill fs .nil))
    (haround : Around S.val v fs) (hv : S.val a = v) (ha : a < S.next)
    (hval : S'.val = S.val) (hnext : S'.next = S.next) (hrep : S'.Represents t')
    (hin : inorder t' = inorder (fill fs (.node a .nil .nil)))
    (hroot : ∀ r ∈ S'.root, S'.red r = false) : Holding S' (vs ++ [v]) t' := by
  subst hv
  have hmem (x : ℕ) : x ∈ inorder t' ↔ x = a ∨ x ∈ inorder (fill fs .nil) := by
    rw [hin, mem_inorder_fill, mem_inorder_fill]
    simp
  refine ⟨hrep, ?_, ?_, ?_, hroot, ?_⟩
  · rw [Ordered, hval, hin]
    exact ordered_insert h.ordered haround
  · intro w
    simp only [List.mem_map, hmem, hval, List.mem_append, List.mem_singleton, ← h.keys]
    grind
  · intro x hx
    rw [hnext]
    rcases (hmem x).mp hx with rfl | hx
    · exact ha
    · exact h.fresh x hx
  · have hlen := (perm_fill fs (.node a .nil .nil)).length_eq
    have hold := (perm_fill fs .nil).length_eq
    have hsize := h.size
    rw [← length_inorder] at hsize ⊢
    rw [hin, hlen]
    simp only [inorder_nil, List.length_append, List.length_nil, inorder_node,
      List.length_cons] at hold ⊢
    omega

theorem Holding.again (h : Holding S vs t) (hv : v ∈ vs) : Holding S (vs ++ [v]) t where
  represents := h.represents
  ordered := h.ordered
  keys w := by
    rw [h.keys, List.mem_append, List.mem_singleton]
    constructor
    · exact Or.inl
    · rintro (hw | rfl)
      · exact hw
      · exact hv
  fresh := h.fresh
  rootBlack := h.rootBlack
  size := h.size.trans (by simp)

theorem Holding.height_le (h : Holding S vs t) : t.height ≤ vs.length :=
  t.height_le_numNodes.trans h.size

theorem holding_first (fuel : ℕ) (h : Holding S vs .nil) (v : α) :
    ∃ S', S.insertNode fuel v = some (some 1, S') ∧
      Holding S' (vs ++ [v]) (.node S.next .nil .nil) ∧ S'.red S.next = false := by
  obtain ⟨hc, -⟩ := h.create v
  obtain ⟨-, hparent, hleaf⟩ := createNode_new (S := S) (v := v)
  refine ⟨_, insertNode_empty h.represents.root_eq, ?_, by simp [RBTree.withNodes]⟩
  refine Holding.extend [] hc around_nil createNode_val (Nat.lt_succ_self _) rfl rfl ?_ rfl ?_
  · exact ⟨⟨rfl, hparent, hleaf .left, hleaf .right⟩, by simp⟩
  · simp [RBTree.withNodes]

/-- What the code has before it rebalances. -/
theorem Holding.linked (h : Holding S vs t)
    (hd : descend (S.createNode v).val v [] t = (f :: fs, .nil)) :
    fill (f :: fs) .nil = t ∧ Around (S.createNode v).val v (f :: fs) ∧
      (f :: fs).length ≤ vs.length ∧
      ((S.createNode v).link S.next f.id).Represents (fill (f :: fs) (.node S.next .nil .nil)) := by
  obtain ⟨hc, hnew⟩ := h.create v
  obtain ⟨-, -, hleaf⟩ := createNode_new (S := S) (v := v)
  have haround : Around (S.createNode v).val v (f :: fs) := by
    simpa only [hd] using around_descend (k := v) hc.ordered around_nil
  have hlen := length_descend (S.createNode v).val v t []
  simp only [hd, List.length_nil, Nat.zero_add] at hlen
  have hfill := fill_descend (S.createNode v).val v t []
  simp only [hd, fill_nil] at hfill
  subst hfill
  refine ⟨rfl, haround, hlen.trans h.height_le, ?_⟩
  apply link_represents hc.represents haround createNode_val _ hleaf
  exact fun hx => hnew (mem_inorder_fill.mpr (Or.inr hx))

/-- What it has afterwards: the loop has ended, and the root is made black. -/
theorem holding_below (h : Holding S vs t) (hfuel : vs.length < fuel)
    (hd : descend (S.createNode v).val v [] t = (f :: fs, .nil)) :
    ∃ N S' t', Looping.loop (rebalanceTurn true) fuel
        (S.next, ((S.createNode v).link S.next f.id).toNodes) = some N ∧ N.Represents t' ∧
      S.insertNode fuel v = some (none, S') ∧ Holding S' (vs ++ [v]) t' ∧
      ∀ a, S'.red a = if a ∈ rootOf t' then false else N.red a := by
  obtain ⟨hc, -⟩ := h.create v
  obtain ⟨hfill, haround, hlen, hlink⟩ := h.linked hd
  rw [insertNode_below hc.represents hd (h.height_le.trans_lt hfuel)]
  subst hfill
  have hclimb : Climbing (inorder (fill (f :: fs) (.node S.next .nil .nil))) (f :: fs).length
      (S.next, ((S.createNode v).link S.next f.id).toNodes) :=
    ⟨⟨f :: fs, _, hlink, rfl, rfl, rfl⟩, fun _ r hr => hc.rootBlack r (by simpa using hr)⟩
  obtain ⟨N, hN, t', ht', hin⟩ := rebalance_total hclimb (hlen.trans_lt hfuel)
  obtain ⟨r, hr⟩ : ∃ r, rootOf t' = some r := by
    cases t' with
    | nil =>
      have hmem : S.next ∈ inorder (fill (f :: fs) (.node S.next .nil .nil)) :=
        mem_inorder_fill.mpr (Or.inl (by simp))
      rw [← hin] at hmem
      cases hmem
    | node r _ _ => exact ⟨r, rfl⟩
  have hroot : N.root = some r := ht'.root_eq.trans hr
  refine ⟨N, _, t', hN, ht', by rw [hN, Option.bind_some, hroot, Option.map_some], ?_, ?_⟩
  · refine Holding.extend (f :: fs) hc haround createNode_val (Nat.lt_succ_self _) rfl rfl ht' hin ?_
    simp [RBTree.withNodes, hroot]
  · intro a
    simp [RBTree.withNodes, hr, eq_comm (a := r)]

theorem Holding.nil_iff (h : Holding S vs t) : t = .nil ↔ vs = [] := by
  rw [List.eq_nil_iff_forall_not_mem]
  constructor
  · rintro rfl v hv
    simpa using (h.keys v).mpr hv
  · intro hnone
    cases t with
    | nil => rfl
    | node a l r => exact absurd ((h.keys (S.val a)).mp (List.mem_map_of_mem (by simp))) (hnone _)

/-- What `insert` returns; its statements come to the end of it for a new value in a tree that is not
empty. -/
def answer (vs : List α) (v : α) : Option ℤ :=
  if vs = [] then some 1 else if v ∈ vs then some (-1) else none

theorem answer_eq_none : answer vs v = none ↔ vs ≠ [] ∧ v ∉ vs := by
  unfold answer
  split_ifs <;> simp_all

theorem holding_insertNode (h : Holding S vs t) (v : α) (hfuel : vs.length < fuel) :
    ∃ S' t', S.insertNode fuel v = some (answer vs v, S') ∧ Holding S' (vs ++ [v]) t' := by
  obtain ⟨hc, -⟩ := h.create v
  have hfound : v ∈ vs ↔ (descend (S.createNode v).val v [] t).2 ≠ .nil := by
    rw [← hc.keys, List.mem_map]
    exact exists_key_iff hc.ordered
  rcases hd : descend (S.createNode v).val v [] t with ⟨gs, u⟩
  rw [hd] at hfound
  cases u with
  | node a l r =>
    have hv : v ∈ vs := hfound.mpr (by simp)
    rw [answer, if_neg (List.ne_nil_of_mem hv), if_pos hv]
    have hexist := insertNode_exist hc.represents (congrArg Prod.snd hd) (h.height_le.trans_lt hfuel)
    exact ⟨_, t, hexist, hc.again hv⟩
  | nil =>
    have hv : v ∉ vs := fun hv => hfound.mp hv rfl
    have hfill := fill_descend (S.createNode v).val v t []
    simp only [hd, fill_nil] at hfill
    cases gs with
    | nil =>
      subst hfill
      rw [answer, if_pos (h.nil_iff.mp rfl)]
      obtain ⟨S', hins, hS', -⟩ := holding_first fuel h v
      exact ⟨S', _, hins, hS'⟩
    | cons f gs =>
      have hne : vs ≠ [] := by
        intro hnil
        rw [h.nil_iff.mpr hnil] at hd
        cases hd
      rw [answer, if_neg hne, if_neg hv]
      obtain ⟨N, S', t', -, -, hins, hS', -⟩ := holding_below h hfuel hd
      exact ⟨S', t', hins, hS'⟩

end Insert

section Run

theorem holding_insertNodes {ws : List α} {fuel : ℕ} (h : Holding S vs t)
    (hfuel : vs.length + ws.length < fuel) :
    ∃ S' t', RBTree.insertNodes fuel ws S = some S' ∧ Holding S' (vs ++ ws) t' := by
  induction ws generalizing S vs t with
  | nil =>
    rw [List.append_nil]
    exact ⟨S, t, rfl, h⟩
  | cons w ws ih =>
    rw [List.length_cons] at hfuel
    have hw : vs.length < fuel := by omega
    obtain ⟨S', t', hins, hS'⟩ := holding_insertNode h w hw
    rw [RBTree.insertNodes, hins, Option.bind_some, List.append_cons]
    apply ih hS'
    rw [List.length_append, List.length_singleton]
    omega

theorem Holding.search {fuel : ℕ} (h : Holding S vs t) (hfuel : vs.length < fuel) (v : α) :
    ∃ res, S.search fuel v = some res ∧ (res ≠ none ↔ v ∈ vs) ∧ ∀ a ∈ res, S.val a = v := by
  have hloop := RBTree.search_loop v [] h.represents (h.height_le.trans_lt hfuel)
  rw [← h.represents.root_eq] at hloop
  refine ⟨_, hloop, ?_, ?_⟩
  · rw [← h.keys, List.mem_map, exists_key_iff h.ordered]
    cases (descend S.val v [] t).2 <;> simp [rootOf]
  · intro a ha
    cases hd : (descend S.val v [] t).2 with
    | nil =>
      rw [hd] at ha
      cases ha
    | node b l r =>
      rw [hd] at ha
      cases ha
      exact descend_found hd

/-- The tree of `S` is an ordered set of the values `vs`, whose links agree and which is searched in
order. -/
structure OrderedSet (S : RBTree α) (vs : List α) (t : BinaryTree ℕ) : Prop where
  represents : S.Represents t
  increasing : ((inorder t).map S.val).Pairwise (· < ·)
  keys : ∀ v, v ∈ (inorder t).map S.val ↔ v ∈ vs
  root : ∀ r ∈ S.root, S.parent r = none ∧ S.type r = .black
  search : ∀ v, ∃ res, S.search (vs.length + 1) v = some res ∧ (res ≠ none ↔ v ∈ vs) ∧
    ∀ a ∈ res, S.val a = v

theorem Holding.orderedSet (h : Holding S vs t) : OrderedSet S vs t := by
  refine ⟨h.represents, List.pairwise_map.mpr h.ordered, h.keys, ?_, fun v => h.search (by simp) v⟩
  intro r hr
  have hroot : rootOf t = some r := h.represents.root_eq.symm.trans hr
  have hwhole : S.Represents (fill [] t) := h.represents
  refine ⟨hwhole.parent_eq hroot, ?_⟩
  have hblack := h.rootBlack r hr
  cases htype : S.type r with
  | red => simp [Nodes.red, htype] at hblack
  | black => rfl

/-- The statements of the insertions build an ordered set, whatever the order they come in. -/
theorem insertNodes_ordered [Inhabited α] (vs : List α) :
    ∃ (S : RBTree α) (t : BinaryTree ℕ),
      RBTree.insertNodes (vs.length + 1) vs .empty = some S ∧ OrderedSet S vs t := by
  have hfuel : ([] : List α).length + vs.length < vs.length + 1 := by simp
  obtain ⟨S, t, hrun, h⟩ := holding_insertNodes holding_empty hfuel
  exact ⟨S, t, hrun, h.orderedSet⟩

end Run

section Returning

variable {S' : RBTree α} {fuel m : ℕ} {k : ℤ} {ws : List α}

theorem insertNode_mono {r : Option ℤ × RBTree α} (h : S.insertNode fuel v = some r)
    (hle : fuel ≤ m) : S.insertNode m v = some r := by
  unfold RBTree.insertNode at h ⊢
  dsimp only at h ⊢
  cases hroot : (S.createNode v).root with
  | none =>
    rw [hroot] at h
    exact h
  | some root =>
    rw [hroot] at h
    obtain ⟨place, hfind, h⟩ := Option.bind_eq_some_iff.mp h
    apply Option.bind_eq_some_iff.mpr
    refine ⟨place, Looping.loop_mono hfind hle, ?_⟩
    cases place with
    | exist => exact h
    | below p =>
      cases p with
      | none => cases h
      | some p =>
        change (Looping.loop (rebalanceTurn true) _ _).bind _ = _ at h ⊢
        obtain ⟨N, hloop, h⟩ := Option.bind_eq_some_iff.mp h
        exact Option.bind_eq_some_iff.mpr ⟨N, Looping.loop_mono hloop hle, h⟩

/-- `insert` comes back for the first value and for one that is there, and for no other. -/
theorem insert_of_holding (h : Holding S vs t) (hfuel : vs.length < fuel)
    (hv : vs = [] ∨ v ∈ vs) :
    ∃ k S' t', S.insert fuel v = some (k, S') ∧ Holding S' (vs ++ [v]) t' := by
  obtain ⟨S', t', hins, hS'⟩ := holding_insertNode h v hfuel
  cases hk : answer vs v with
  | none =>
    obtain ⟨hne, hnew⟩ := answer_eq_none.mp hk
    exact absurd hv (not_or.mpr ⟨hne, hnew⟩)
  | some k =>
    rw [hk] at hins
    exact ⟨k, S', t', by rw [RBTree.insert, hins]; rfl, hS'⟩

theorem holding_of_insert (h : Holding S vs t) (hins : S.insert fuel v = some (k, S')) :
    (vs = [] ∨ v ∈ vs) ∧ ∃ t', Holding S' (vs ++ [v]) t' := by
  obtain ⟨⟨r, S₁⟩, hnode, hret⟩ := Option.bind_eq_some_iff.mp hins
  obtain ⟨k', rfl, heq⟩ := Option.map_eq_some_iff.mp hret
  cases heq
  -- more turns give the same result
  obtain ⟨S₂, t', hnode₂, hS'⟩ := holding_insertNode h v (Nat.lt_succ_self vs.length)
  have hboth := insertNode_mono hnode (le_max_left fuel (vs.length + 1))
  rw [insertNode_mono hnode₂ (le_max_right fuel (vs.length + 1)), Option.some.injEq,
    Prod.mk.injEq] at hboth
  obtain ⟨hk, rfl⟩ := hboth
  refine ⟨?_, t', hS'⟩
  by_contra hcon
  rw [answer_eq_none.mpr (not_or.mp hcon)] at hk
  cases hk

/-- No two of the values differ. -/
def AllEqual (vs : List α) : Prop := ∀ v ∈ vs, ∀ w ∈ vs, v = w

omit [LinearOrder α] in
theorem allEqual_concat : AllEqual (vs ++ [v]) ↔ AllEqual vs ∧ (vs = [] ∨ v ∈ vs) := by
  simp only [AllEqual, List.mem_append, List.mem_singleton]
  constructor
  · intro h
    refine ⟨fun x hx y hy => h x (Or.inl hx) y (Or.inl hy), ?_⟩
    rcases List.eq_nil_or_concat' vs with rfl | ⟨us, u, rfl⟩
    · exact Or.inl rfl
    · right
      rw [← h u (Or.inl (by simp)) v (Or.inr rfl)]
      simp
  · rintro ⟨h, hv⟩ x (hx | rfl) y (hy | rfl)
    · exact h x hx y hy
    · rcases hv with rfl | hv
      · cases hx
      · exact h x hx y hv
    · rcases hv with rfl | hv
      · cases hy
      · exact h x hv y hy
    · rfl

theorem holding_inserts (h : Holding S vs t) (hfuel : vs.length + ws.length < fuel)
    (heq : AllEqual (vs ++ ws)) :
    ∃ S' t', RBTree.inserts fuel ws S = some S' ∧ Holding S' (vs ++ ws) t' := by
  induction ws generalizing S vs t with
  | nil =>
    rw [List.append_nil]
    exact ⟨S, t, rfl, h⟩
  | cons w ws ih =>
    rw [List.length_cons] at hfuel
    rw [List.append_cons] at heq ⊢
    have hone : AllEqual (vs ++ [w]) := fun x hx y hy =>
      heq x (List.mem_append_left _ hx) y (List.mem_append_left _ hy)
    have hw : vs.length < fuel := by omega
    obtain ⟨k, S', t', hins, hS'⟩ := insert_of_holding h hw (allEqual_concat.mp hone).2
    rw [RBTree.inserts, hins, Option.bind_some]
    apply ih hS' _ heq
    rw [List.length_append, List.length_singleton]
    omega

theorem holding_of_inserts (h : Holding S vs t) (heq : AllEqual vs)
    (hrun : RBTree.inserts fuel ws S = some S') :
    AllEqual (vs ++ ws) ∧ ∃ t', Holding S' (vs ++ ws) t' := by
  induction ws generalizing S vs t with
  | nil =>
    cases hrun
    rw [List.append_nil]
    exact ⟨heq, t, h⟩
  | cons w ws ih =>
    obtain ⟨⟨k, S₁⟩, hins, hrest⟩ := Option.bind_eq_some_iff.mp hrun
    obtain ⟨hw, t₁, hS₁⟩ := holding_of_insert h hins
    rw [List.append_cons]
    exact ih hS₁ (allEqual_concat.mpr ⟨heq, hw⟩) hrest

/-- Every call of the run comes back, and the tree is then an ordered set of the values. -/
def BuildsSet [Inhabited α] (vs : List α) : Prop :=
  ∃ fuel S t, RBTree.inserts fuel vs (.empty : RBTree α) = some S ∧ OrderedSet S vs t

theorem buildsSet_iff [Inhabited α] (vs : List α) : BuildsSet vs ↔ AllEqual vs := by
  constructor
  · rintro ⟨fuel, S, t, hrun, -⟩
    exact (holding_of_inserts holding_empty nofun hrun).1
  · intro heq
    have hfuel : ([] : List α).length + vs.length < vs.length + 1 := by simp
    obtain ⟨S, t, hrun, h⟩ := holding_inserts holding_empty hfuel heq
    exact ⟨_, S, t, hrun, h.orderedSet⟩

/-- The second call does not come back. -/
theorem second_value_lost : ¬ BuildsSet [1, 2] := by
  rintro ⟨fuel, S, t, hrun, -⟩
  have heq := (holding_of_inserts holding_empty nofun hrun).1
  exact absurd (heq 1 (by decide) 2 (by decide)) (by decide)

end Returning

end MgRaffle.RbTree
