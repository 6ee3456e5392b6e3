import MgRaffle.Utils.Rehash

namespace MgRaffle.Utils

open LinkedChain

namespace HashTable

section Code

variable {ι κ : Type*} [DecidableEq ι] [DecidableEq κ] (key : ι → κ) (hash : ι → UInt32)

/-- What `*l` is changes with the first assignment, and `*l` is read again after it. There is no
result where a null pointer is followed. -/
def removeNode (fuel : ℕ) (k : κ) (x : UInt32) (T : HashTable ι) :
    Option (Pointer ι × HashTable ι) :=
  (findNode key hash fuel k x T).bind fun l =>
  match T.read l with
  | .null => some (.null, T)
  | .wild => none
  | .node a => (T.prev a).bind fun p =>
    let T := T.write p (T.next a)
    match T.read l with
    | .null => none
    | .wild => none
    | .node b =>
      match T.next b with
      | .null =>
        let T := { T with elem := T.elem - 1 }
        some (T.read l, T)
      | .wild => none
      | .node c =>
        let T := { T with prev := Function.update T.prev c (T.prev b) }
        let T := { T with elem := T.elem - 1 }
        some (T.read l, T)

end Code

variable {ι κ : Type*} {key : ι → κ} {hash : ι → UInt32} {mem : ℕ → ℕ → Pointer ι}
  {T T' : HashTable ι} {k : κ} {x : UInt32} {a b : ι} {chains chains' : ℕ → List ι} {fuel : ℕ}

/-- Every node is in its bucket, and its `prev` has the place of the pointer to it. -/
structure WellFormed (hash : ι → UInt32) (T : HashTable ι) (chains : ℕ → List ι) : Prop where
  coherent : Coherent hash T chains
  back : ∀ i < T.length.toNat, ∀ pre a post, chains i = pre ++ a :: post →
    T.prev a = some (endSlot (.bucket T.array i) pre)
  elem : T.elem.toNat = (nodes T chains).length

/-- A table whose only node is `0`, in the first of four buckets. -/
def single : HashTable ℕ :=
  { length := 4
    elem := 1
    list := fun i => if i = 0 then .node 0 else .null
    array := 0
    next := fun _ => .null
    prev := fun _ => some (.bucket 0 0) }

theorem wellFormed_single : WellFormed (fun _ => 0) single fun i => if i = 0 then [0] else [] where
  coherent := by
    refine ⟨?_, ?_, ?_⟩
    · intro i _
      by_cases hi : i = 0
      · subst hi
        exact ⟨rfl, rfl⟩
      · simp only [if_neg hi]
        exact if_neg hi
    · intro i _ a ha
      by_cases hi : i = 0
      · subst hi
        rfl
      · simp [hi] at ha
    · intro i _
      by_cases hi : i = 0 <;> simp [hi]
  back := by
    intro i _ pre a post hsplit
    by_cases hi : i = 0
    · subst hi
      cases pre with
      | nil => rfl
      | cons b pre => simp at hsplit
    · simp [hi] at hsplit
  elem := by decide

section Resize

variable [DecidableEq ι]

/-- `resize` ends with a table that has the same nodes and is as well formed. -/
def Intact (hash : ι → UInt32) (mem : ℕ → ℕ → Pointer ι) (T : HashTable ι) (chains : ℕ → List ι) :
    Prop :=
  ∃ fuel T' chains', resize hash mem fuel T = some T' ∧ WellFormed hash T' chains' ∧
    ∀ a, a ∈ nodes T' chains' ↔ a ∈ nodes T chains

theorem resize_eq_some (h : resize hash mem fuel T = some T') :
    ∃ n s, Looping.loop (growTurn T.elem) fuel 4 = some n ∧
      moveAll hash fuel n T (List.range T.length.toNat)
        ⟨newList mem (T.array + 1) n, T.next, 0⟩ = some s ∧ s.count = T.elem ∧
      T' = { T with length := n, list := s.list, array := T.array + 1, next := s.next } := by
  obtain ⟨n, hn, h⟩ := Option.bind_eq_some_iff.mp h
  obtain ⟨s, hs, h⟩ := Option.bind_eq_some_iff.mp h
  rw [Option.ite_none_right_eq_some, Option.some.injEq] at h
  exact ⟨n, s, hn, hs, h.1, h.2.symm⟩

/-- The pointers back lead to the array that is deleted. -/
theorem nodes_eq_nil_of_intact (h : WellFormed hash T chains) (h' : WellFormed hash T' chains')
    (hresize : resize hash mem fuel T = some T')
    (hsame : ∀ a, a ∈ nodes T' chains' ↔ a ∈ nodes T chains) : nodes T chains = [] := by
  obtain ⟨n, s, -, -, -, rfl⟩ := resize_eq_some hresize
  rw [List.eq_nil_iff_forall_not_mem]
  intro a ha
  obtain ⟨i, hi, ha'⟩ := mem_nodes.mp ((hsame a).mpr ha)
  cases hc : chains' i with
  | nil =>
    rw [hc] at ha'
    cases ha'
  | cons b post =>
    have hb : b ∈ nodes T chains := by
      apply (hsame b).mp
      rw [mem_nodes]
      exact ⟨i, hi, hc ▸ List.mem_cons_self ..⟩
    have hnew := h'.back i hi [] b post hc
    obtain ⟨j, hj, hbj⟩ := mem_nodes.mp hb
    obtain ⟨pre, rest, hsplit⟩ := List.append_of_mem hbj
    have hold := h.back j hj pre b rest hsplit
    dsimp only at hnew
    rw [hold, Option.some.injEq] at hnew
    rcases endSlot_mem (.bucket T.array j) pre with hend | ⟨c, -, hend⟩
    · rw [hend] at hnew
      have harray : T.array = T.array + 1 := (Slot.bucket.inj hnew).1
      omega
    · rw [hend] at hnew
      cases hnew

theorem moveAll_null {n : UInt32} {is : List ℕ} {s : Moving ι} (h : ∀ i ∈ is, T.list i = .null)
    (hfuel : 0 < fuel) : moveAll hash fuel n T is s = some s := by
  obtain ⟨m, rfl⟩ : ∃ m, fuel = m + 1 := ⟨fuel - 1, by omega⟩
  induction is with
  | nil => rfl
  | cons i is ih =>
    have hturn : Looping.loop (moveTurn hash n) (m + 1) (T.list i, s) = some s := by
      rw [h i (List.mem_cons_self ..)]
      exact Looping.loop_inr rfl
    rw [moveAll, List.foldlM_cons, hturn]
    exact ih fun j hj => h j (List.mem_cons_of_mem _ hj)

/-- An empty table gets four buckets as they were in memory. -/
theorem resize_empty (h : WellFormed hash T chains) (hnil : nodes T chains = [])
    (hfuel : 0 < fuel) : resize hash mem fuel T =
      some { T with length := 4, list := newList mem (T.array + 1) 4, array := T.array + 1 } := by
  have helem : T.elem = 0 := by
    have hlen := h.elem
    rw [hnil, List.length_nil] at hlen
    exact UInt32.toNat_inj.mp hlen
  have hlists : ∀ i ∈ List.range T.length.toNat, T.list i = .null := by
    intro i hi
    have hchain := h.coherent.chain i (List.mem_range.mp hi)
    have hempty : chains i = [] := by
      rw [List.eq_nil_iff_forall_not_mem]
      intro a ha
      have hmem : a ∈ nodes T chains := mem_nodes.mpr ⟨i, List.mem_range.mp hi, ha⟩
      rw [hnil] at hmem
      cases hmem
    rw [hempty] at hchain
    exact hchain
  obtain ⟨m, rfl⟩ : ∃ m, fuel = m + 1 := ⟨fuel - 1, by omega⟩
  have hgrow : Looping.loop (growTurn T.elem) (m + 1) 4 = some 4 := by
    apply Looping.loop_inr
    rw [helem]
    rfl
  rw [resize, hgrow, Option.bind_some, moveAll_null hlists hfuel, Option.bind_some, helem]
  exact if_pos rfl

/-- `resize` leaves a well formed table exactly where there is nothing to move and the memory of the
new array is null already. -/
theorem resize_intact_iff (h : WellFormed hash T chains) :
    Intact hash mem T chains ↔ nodes T chains = [] ∧ Cleared mem (T.array + 1) 4 := by
  constructor
  · rintro ⟨fuel, T', chains', hresize, h', hsame⟩
    have hnil := nodes_eq_nil_of_intact h h' hresize hsame
    refine ⟨hnil, ?_⟩
    have hfuel : 0 < fuel := by
      obtain ⟨n, s, hn, -⟩ := resize_eq_some hresize
      cases fuel with
      | zero => cases hn
      | succ m => exact Nat.succ_pos m
    rw [resize_empty h hnil hfuel, Option.some.injEq] at hresize
    subst hresize
    intro i hi
    have hchain := h'.coherent.chain i hi
    have hempty : chains' i = [] := by
      rw [List.eq_nil_iff_forall_not_mem]
      intro a ha
      have hmem := (hsame a).mp (mem_nodes.mpr ⟨i, hi, ha⟩)
      rw [hnil] at hmem
      cases hmem
    rw [hempty] at hchain
    exact hchain
  · rintro ⟨hnil, hclear⟩
    refine ⟨1, _, fun _ => [], resize_empty h hnil Nat.one_pos, ⟨⟨?_, ?_, ?_⟩, ?_, ?_⟩, ?_⟩
    · intro i hi
      exact hclear i hi
    · intro i _ a ha
      cases ha
    · intro i _
      exact List.nodup_nil
    · intro i _ pre a post hpost
      simp at hpost
    · have hlen := h.elem
      rw [hnil] at hlen
      exact hlen
    · intro a
      rw [hnil]
      simp [mem_nodes]

/-- The constructor's table, with memory that is null where the array comes to lie. -/
theorem resize_intact_new : Intact (fun _ : ℕ => 0) (fun _ _ => .null)
    ⟨0, 0, fun _ => .wild, 0, fun _ => .null, fun _ => none⟩ fun _ => [] := by
  have hempty : WellFormed (fun _ : ℕ => 0)
      ⟨0, 0, fun _ => .wild, 0, fun _ => .null, fun _ => none⟩ fun _ => [] :=
    ⟨⟨nofun, nofun, nofun⟩, nofun, rfl⟩
  refine (resize_intact_iff hempty).mpr ⟨rfl, ?_⟩
  intro i _
  unfold newList
  split_ifs <;> rfl

/-- The pointer back of a single node does not come along. -/
theorem back_pointer_stale : ¬ ∀ (hash : ℕ → UInt32) (mem : ℕ → ℕ → Pointer ℕ) (T : HashTable ℕ)
    (chains : ℕ → List ℕ), WellFormed hash T chains → Intact hash mem T chains := by
  intro h
  obtain ⟨fuel, T', chains', hresize, hwell, hsame⟩ :=
    h _ (fun _ _ => .null) single _ wellFormed_single
  have hnil := nodes_eq_nil_of_intact wellFormed_single hwell hresize hsame
  revert hnil
  decide

end Resize

section Remove

variable [DecidableEq κ]

/-- The node `a` has gone, and nothing else has changed. -/
structure Removed (key : ι → κ) (hash : ι → UInt32) (T : HashTable ι) (chains : ℕ → List ι) (k : κ)
    (a : ι) (T' : HashTable ι) : Prop where
  held : a ∈ nodes T chains ∧ key a = k
  elem : T'.elem = T.elem - 1
  wellFormed : ∃ chains', WellFormed hash T' chains' ∧
    ∀ b, b ∈ nodes T' chains' ↔ b ∈ nodes T chains ∧ b ≠ a
  lookup : ∀ k' x', k' ≠ k → ∃ fuel p, lookup key hash fuel k' x' T = some p ∧
    lookup key hash fuel k' x' T' = some p

variable [DecidableEq ι]

/-- Without a node with the key the table stays as it is and the result is null; else the result is
the node that is removed. -/
def Removes (key : ι → κ) (hash : ι → UInt32) (T : HashTable ι) (chains : ℕ → List ι) (k : κ)
    (x : UInt32) : Prop :=
  ((∀ a ∈ nodes T chains, key a ≠ k) →
    ∃ fuel, removeNode key hash fuel k x T = some (.null, T)) ∧
  ((∃ a ∈ nodes T chains, key a = k) →
    ∃ fuel a T', removeNode key hash fuel k x T = some (.node a, T') ∧
      Removed key hash T chains k a T')

theorem removeNode_mono {r : Pointer ι × HashTable ι} {fuel' : ℕ}
    (h : removeNode key hash fuel k x T = some r) (hle : fuel ≤ fuel') :
    removeNode key hash fuel' k x T = some r := by
  obtain ⟨l, hl, hrest⟩ := Option.bind_eq_some_iff.mp h
  rw [removeNode, findNode, Looping.loop_mono hl hle]
  exact hrest

variable {pre post : List ι}

omit [DecidableEq κ] [DecidableEq ι] in
theorem index_lt (hpos : 0 < T.length.toNat) (x : UInt32) : T.index x < T.length.toNat :=
  bucketOf_lt hpos x

omit [DecidableEq ι] in
/-- The pointer that the search ends at is the one that is changed. -/
theorem WellFormed.find (h : WellFormed hash T chains) (hpos : 0 < T.length.toNat)
    (hsplit : chains (T.index x) = pre ++ post) (hpre : ∀ a ∈ pre, ¬ (hash a = x ∧ key a = k))
    (hpost : ∀ a ∈ post.head?, hash a = x ∧ key a = k) (hfuel : pre.length < fuel) :
    findNode key hash fuel k x T = some (endSlot (.bucket T.array (T.index x)) pre) ∧
      T.read (endSlot (.bucket T.array (T.index x)) pre) = .ofOption post.head? := by
  have hchain := h.coherent.chain _ (index_lt hpos x)
  have hread : T.read (.bucket T.array (T.index x)) = T.list (T.index x) := if_pos rfl
  rw [hsplit, segment_append] at hchain
  obtain ⟨q, hseg, hrest⟩ := hchain
  have hq : q = .ofOption post.head? := by
    cases post with
    | nil => exact hrest
    | cons a as => exact hrest.1
  rw [hq, ← hread] at hseg
  refine ⟨walk hseg hpre ?_ hfuel, read_endSlot hseg⟩
  cases hp : post.head? with
  | none => exact .inl rfl
  | some a => exact .inr ⟨a, rfl, hpost a hp⟩

theorem removeNode_absent (h : WellFormed hash T chains) (hpos : 0 < T.length.toNat)
    (hnone : ∀ a ∈ chains (T.index x), ¬ (hash a = x ∧ key a = k))
    (hfuel : (chains (T.index x)).length < fuel) :
    removeNode key hash fuel k x T = some (.null, T) := by
  have hsplit : chains (T.index x) = chains (T.index x) ++ [] := (List.append_nil _).symm
  obtain ⟨hfind, hread⟩ := h.find hpos hsplit hnone (fun a ha => nomatch ha) hfuel
  rw [removeNode, hfind, Option.bind_some, hread]
  rfl

omit [DecidableEq κ] [DecidableEq ι] in
/-- The slot before a node is the one that its `prev` has, and no bucket of a deleted array. -/
theorem WellFormed.slot (h : WellFormed hash T chains) (hpos : 0 < T.length.toNat)
    (hsplit : chains (T.index x) = pre ++ a :: post) :
    T.prev a = some (endSlot (.bucket T.array (T.index x)) pre) ∧
      Live T (endSlot (.bucket T.array (T.index x)) pre) := by
  refine ⟨h.back _ (index_lt hpos x) pre a post hsplit, ?_⟩
  rcases endSlot_mem (.bucket T.array (T.index x)) pre with hend | ⟨c, -, hend⟩
  · rw [hend]
    rfl
  · rw [hend]
    trivial

/-- Once the last node is unlinked, `*l` is null, and `(*l)->next` is read. -/
theorem removeNode_last (h : WellFormed hash T chains) (hpos : 0 < T.length.toNat)
    (hsplit : chains (T.index x) = pre ++ [a]) (hpre : ∀ b ∈ pre, ¬ (hash b = x ∧ key b = k))
    (ha : hash a = x ∧ key a = k) (hfuel : pre.length < fuel) :
    removeNode key hash fuel k x T = none := by
  obtain ⟨hfind, hread⟩ := h.find hpos hsplit hpre
    (fun b hb => Option.mem_some_iff.mp hb ▸ ha) hfuel
  obtain ⟨hprev, hlive⟩ := h.slot hpos hsplit
  have hnext : T.next a = .null := by
    have hchain := h.coherent.chain _ (index_lt hpos x)
    rw [hsplit, segment_append] at hchain
    obtain ⟨q, -, hrest⟩ := hchain
    exact hrest.2
  rw [removeNode, hfind, Option.bind_some, hread]
  simp only [List.head?_cons, Pointer.ofOption]
  rw [hprev, Option.bind_some, hnext, read_write hlive]

omit [DecidableEq κ] in
/-- The pointer to a node is set to the node behind it: this one keeps its `next`, and the chain leads
to it. -/
theorem WellFormed.unlinked (h : WellFormed hash T chains) (hpos : 0 < T.length.toNat)
    (hsplit : chains (T.index x) = pre ++ a :: b :: post) :
    let T₁ := T.write (endSlot (.bucket T.array (T.index x)) pre) (.node b)
    T₁.next b = T.next b ∧ Segment T₁.next (T₁.list (T.index x)) pre (.node b) := by
  intro T₁
  have hchain := h.coherent.chain _ (index_lt hpos x)
  have hnodup := h.coherent.nodup _ (index_lt hpos x)
  rw [hsplit] at hchain hnodup
  obtain ⟨q, hseg, -⟩ := segment_append.mp hchain
  obtain ⟨hpre, -, hapart⟩ := List.nodup_append.mp hnodup
  have hbucket : T.read (.bucket T.array (T.index x)) = T.list (T.index x) := if_pos rfl
  rw [← hbucket] at hseg
  -- the node behind is not the one whose `next` is written
  have hne : Slot.next b ≠ endSlot (.bucket T.array (T.index x)) pre := by
    intro heq
    rcases endSlot_mem (.bucket T.array (T.index x)) pre with hend | ⟨c, hc, hend⟩
    · rw [hend] at heq
      cases heq
    · rw [hend] at heq
      cases heq
      exact hapart b hc b (by simp) rfl
  have hlead := segment_write (v := .node b) hseg rfl hpre (fun c _ heq => nomatch heq)
  have hlist : T₁.read (.bucket T.array (T.index x)) = T₁.list (T.index x) :=
    if_pos write_array.symm
  rw [hlist] at hlead
  exact ⟨read_write_of_ne (v := .node b) hne, hlead⟩

/-- Once an inner node is unlinked, `*l` is the one behind it. -/
theorem removeNode_inner (h : WellFormed hash T chains) (hpos : 0 < T.length.toNat)
    (hsplit : chains (T.index x) = pre ++ a :: b :: post)
    (hpre : ∀ c ∈ pre, ¬ (hash c = x ∧ key c = k)) (ha : hash a = x ∧ key a = k)
    (hfuel : pre.length < fuel) : ∃ T', removeNode key hash fuel k x T = some (.node b, T') ∧
      T'.length = T.length ∧ Segment T'.next (T'.list (T.index x)) pre (.node b) := by
  obtain ⟨hfind, hread⟩ := h.find hpos hsplit hpre
    (fun c hc => Option.mem_some_iff.mp hc ▸ ha) hfuel
  obtain ⟨hprev, hlive⟩ := h.slot hpos hsplit
  obtain ⟨hkept, hlead⟩ := h.unlinked hpos hsplit
  have hchain := h.coherent.chain _ (index_lt hpos x)
  rw [hsplit] at hchain
  obtain ⟨q, -, -, hab, hb⟩ := segment_append.mp hchain
  rw [removeNode, hfind, Option.bind_some, hread]
  simp only [List.head?_cons, Pointer.ofOption]
  rw [hprev, Option.bind_some, hab, read_write hlive]
  simp only
  rw [hkept]
  cases post with
  | nil =>
    have hend : T.next b = .null := hb
    rw [hend]
    refine ⟨_, congrArg some (Prod.ext ?_ rfl), write_length, hlead⟩
    exact read_write hlive
  | cons c rest =>
    rw [hb.1]
    refine ⟨_, congrArg some (Prod.ext ?_ rfl), write_length, hlead⟩
    exact read_write hlive

/-- A call that finds a node does not remove the one that it returns. -/
theorem not_removed (h : WellFormed hash T chains) (hpos : 0 < T.length.toNat)
    (hrun : removeNode key hash fuel k x T = some (.node a, T')) :
    ¬ Removed key hash T chains k a T' := by
  intro hremoved
  -- no fuel gives another result, so there is enough of it
  have hlen : (chains (T.index x)).length < max fuel ((chains (T.index x)).length + 1) :=
    lt_max_of_lt_right (Nat.lt_succ_self _)
  have hlong := removeNode_mono hrun (le_max_left fuel ((chains (T.index x)).length + 1))
  cases hfind : (chains (T.index x)).find? fun a => decide (hash a = x ∧ key a = k) with
  | none =>
    have hnone : ∀ a ∈ chains (T.index x), ¬ (hash a = x ∧ key a = k) := by
      simpa using hfind
    rw [removeNode_absent h hpos hnone hlen] at hlong
    cases hlong
  | some c =>
    obtain ⟨hc, pre, post, hsplit, hbefore⟩ := List.find?_eq_some_iff_append.mp hfind
    have hmatch : hash c = x ∧ key c = k := of_decide_eq_true hc
    have hpre : ∀ b ∈ pre, ¬ (hash b = x ∧ key b = k) := by
      intro b hb hother
      have hnot := hbefore b hb
      rw [decide_eq_true hother] at hnot
      cases hnot
    have hshort : pre.length < max fuel ((chains (T.index x)).length + 1) := by
      have hsum := congrArg List.length hsplit
      rw [List.length_append] at hsum
      omega
    cases post with
    | nil =>
      rw [removeNode_last h hpos hsplit hpre hmatch hshort] at hlong
      cases hlong
    | cons b rest =>
      obtain ⟨T₁, hrun₁, hlength, hlead⟩ := removeNode_inner h hpos hsplit hpre hmatch hshort
      rw [hrun₁, Option.some.injEq, Prod.mk.injEq, Pointer.node.injEq] at hlong
      obtain ⟨rfl, rfl⟩ := hlong
      -- the node that is returned is still in the table
      obtain ⟨chains', hwell, hnodes⟩ := hremoved.wellFormed
      have hindex : T.index x < T₁.length.toNat := by
        rw [hlength]
        exact index_lt hpos x
      have hmem := hlead.mem (hwell.coherent.chain _ hindex)
      exact ((hnodes b).mp (mem_nodes.mpr ⟨_, hindex, hmem⟩)).2 rfl

/-- A table is handled as it should be exactly if it has no node with the key. -/
theorem remove_iff (h : WellFormed hash T chains) (hpos : 0 < T.length.toNat) (k : κ) (x : UInt32) :
    Removes key hash T chains k x ↔ ∀ a ∈ nodes T chains, key a ≠ k := by
  constructor
  · intro hremoves
    by_contra hheld
    push Not at hheld
    obtain ⟨fuel, a, T', hrun, hremoved⟩ := hremoves.2 hheld
    exact not_removed h hpos hrun hremoved
  · intro hnone
    refine ⟨fun _ => ⟨(chains (T.index x)).length + 1, ?_⟩, ?_⟩
    · apply removeNode_absent h hpos _ (Nat.lt_succ_self _)
      intro a ha hmatch
      exact hnone a (mem_nodes.mpr ⟨_, index_lt hpos x, ha⟩) hmatch.2
    · rintro ⟨a, ha, hkey⟩
      exact absurd hkey (hnone a ha)

/-- The only node has another key. -/
theorem remove_absent : Removes (id : ℕ → ℕ) (fun _ => 0) single
    (fun i => if i = 0 then [0] else []) 1 0 :=
  (remove_iff wellFormed_single (by decide) 1 0).mpr (by decide)

/-- The removal of the only node of a table follows a null pointer. -/
theorem single_not_removed : ¬ ∀ (hash : ℕ → UInt32) (T : HashTable ℕ) (chains : ℕ → List ℕ),
    WellFormed hash T chains → 0 < T.length.toNat → ∀ k x, Removes (id : ℕ → ℕ) hash T chains k x := by
  intro h
  have hremoves := h _ single _ wellFormed_single (by decide) 0 0
  obtain ⟨fuel, a, T', hrun, -⟩ := hremoves.2 ⟨0, by decide, rfl⟩
  have hlast : removeNode id (fun _ : ℕ => 0) (fuel + 1) 0 0 single = none := rfl
  rw [removeNode_mono hrun (Nat.le_succ fuel)] at hlast
  cases hlast

end Remove

end HashTable

end MgRaffle.Utils
