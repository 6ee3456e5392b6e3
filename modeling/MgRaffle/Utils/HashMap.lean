import MgRaffle.Utils.Rehash

namespace MgRaffle.Utils

open LinkedChain

namespace HashTable

variable {ι κ : Type*} [DecidableEq κ] {key : ι → κ} {hash : ι → UInt32}
  {mem : ℕ → ℕ → Pointer ι} {T : HashTable ι} {k : κ} {x : UInt32} {a b l : ι} {ls : List ι}
  {chains : ℕ → List ι} {fuel : ℕ}

section Latest

/-- The node that was inserted last with the key. -/
def latest (key : ι → κ) (k : κ) (ls : List ι) : Option ι := ls.reverse.find? fun a => key a = k

theorem latest_append (key : ι → κ) (k : κ) (ls : List ι) (l : ι) :
    latest key k (ls ++ [l]) = if key l = k then some l else latest key k ls := by
  unfold latest
  rw [List.reverse_append, List.reverse_singleton, List.singleton_append, List.find?_cons]
  by_cases hkey : key l = k <;> simp [hkey]

theorem latest_some (h : latest key k ls = some a) : a ∈ ls ∧ key a = k := by
  have hmem := List.mem_of_find?_eq_some h
  have hkey := List.find?_some h
  exact ⟨List.mem_reverse.mp hmem, of_decide_eq_true hkey⟩

theorem latest_none : latest key k ls = none ↔ ∀ a ∈ ls, key a ≠ k := by
  unfold latest
  simp [List.find?_eq_none]

/-- The pointers that the insertions of `ms` after those of `ls` have to return. -/
def replaced (key : ι → κ) : List ι → List ι → List (Pointer ι)
  | _, [] => []
  | ls, l :: ms => .ofOption (latest key (key l) ls) :: replaced key (ls ++ [l]) ms

end Latest

section Holding

/-- The table holds the latest nodes of the keys. -/
structure Holding (key : ι → κ) (hash : ι → UInt32) (T : HashTable ι) (chains : ℕ → List ι)
    (ls : List ι) : Prop where
  pos : 0 < T.length.toNat
  coherent : Coherent hash T chains
  mem : ∀ a, a ∈ chains (T.index (hash a)) ↔ latest key (key a) ls = some a
  elem : T.elem.toNat = (ls.map key).toFinset.card
  fresh : ∀ a ∉ ls, T.next a = .null

theorem Holding.mem_nodes (h : Holding key hash T chains ls) :
    a ∈ nodes T chains ↔ latest key (key a) ls = some a := by
  rw [h.coherent.mem_nodes_iff h.pos, h.mem]

theorem Holding.length_nodes (h : Holding key hash T chains ls) :
    (nodes T chains).length = (ls.map key).toFinset.card := by
  have hnd : ((nodes T chains).map key).Nodup := by
    apply List.Nodup.map_on _ h.coherent.nodup_nodes
    intro a ha b hb hkey
    rw [h.mem_nodes] at ha hb
    rw [hkey, hb] at ha
    exact (Option.some.inj ha).symm
  have hset : ((nodes T chains).map key).toFinset = (ls.map key).toFinset := by
    ext k
    rw [List.mem_toFinset, List.mem_toFinset, List.mem_map, List.mem_map]
    constructor
    · intro hk
      obtain ⟨a, ha, hkey⟩ := hk
      exact ⟨a, (latest_some (h.mem_nodes.mp ha)).1, hkey⟩
    · intro hk
      obtain ⟨a, ha, hkey⟩ := hk
      cases hlatest : latest key k ls with
      | none => exact absurd hkey (latest_none.mp hlatest a ha)
      | some b =>
        have hb := (latest_some hlatest).2
        refine ⟨b, h.mem_nodes.mpr ?_, hb⟩
        rw [hb, hlatest]
  rw [← hset, List.toFinset_card_of_nodup hnd, List.length_map]

theorem Holding.length_nodes_le (h : Holding key hash T chains ls) :
    (nodes T chains).length ≤ ls.length := by
  rw [h.length_nodes]
  calc (ls.map key).toFinset.card ≤ (ls.map key).length := List.toFinset_card_le _
    _ = ls.length := List.length_map ..

/-- The chain up to the node with the key, or all of it. -/
theorem Holding.split (h : Holding key hash T chains ls)
    (hx : ∀ a ∈ ls, key a = k → hash a = x) : ∃ pre post,
      chains (T.index x) = pre ++ ((latest key k ls).toList ++ post) ∧
      Segment T.next (T.list (T.index x)) pre (.ofOption (latest key k ls)) ∧
      (∀ a ∈ pre, key a ≠ k) ∧ (latest key k ls = none → post = []) ∧
      ∀ b, latest key k ls = some b → T.next b = .null → post = [] := by
  have hi : T.index x < T.length.toNat := bucketOf_lt h.pos x
  have hchain := h.coherent.chain _ hi
  have hlatest (a : ι) (ha : a ∈ chains (T.index x)) : latest key (key a) ls = some a := by
    rw [← h.mem, h.coherent.home _ hi a ha]
    exact ha
  cases hk : latest key k ls with
  | none =>
    refine ⟨chains (T.index x), [], ?_, hchain, ?_, fun _ => rfl, nofun⟩
    · rw [Option.toList_none, List.append_nil, List.append_nil]
    · intro a ha hkey
      have hsome := hlatest a ha
      rw [hkey, hk] at hsome
      cases hsome
  | some b =>
    have hb := latest_some hk
    have hmem : b ∈ chains (T.index x) := by
      rw [← hx b hb.1 hb.2, h.mem, hb.2, hk]
    obtain ⟨pre, post, hsplit⟩ := List.append_of_mem hmem
    have hnd := h.coherent.nodup _ hi
    have hseg : Segment T.next (T.list (T.index x)) (pre ++ b :: post) .null := hsplit ▸ hchain
    obtain ⟨q, hpre, hq⟩ := segment_append.mp hseg
    rw [hq.1] at hpre
    refine ⟨pre, post, hsplit, hpre, ?_, nofun, ?_⟩
    · intro a ha hkey
      have hsome := hlatest a (hsplit ▸ List.mem_append_left _ ha)
      rw [hkey, hk, Option.some.injEq] at hsome
      rw [hsplit, hsome] at hnd
      exact (List.nodup_append.mp hnd).2.2 a ha a (List.mem_cons_self ..) rfl
    · intro c hc hnull
      cases hc
      have hpost := hq.2
      rw [hnull] at hpost
      exact hpost.eq_nil

omit [DecidableEq κ] in
theorem read_bucket (T : HashTable ι) (i : ℕ) : T.read (.bucket T.array i) = T.list i := if_pos rfl

/-- The search ends behind the nodes `pre`, at the pointer to the latest node with the key. -/
theorem Holding.find (h : Holding key hash T chains ls) {pre post : List ι}
    (hsplit : chains (T.index x) = pre ++ ((latest key k ls).toList ++ post))
    (hpre : Segment T.next (T.list (T.index x)) pre (.ofOption (latest key k ls)))
    (hne : ∀ a ∈ pre, key a ≠ k) (hx : ∀ a ∈ ls, key a = k → hash a = x)
    (hfuel : ls.length < fuel) :
    findNode key hash fuel k x T = some (endSlot (.bucket T.array (T.index x)) pre) ∧
      T.read (endSlot (.bucket T.array (T.index x)) pre) = .ofOption (latest key k ls) := by
  have hstart : Segment T.next (T.read (.bucket T.array (T.index x))) pre
      (.ofOption (latest key k ls)) := by
    rw [read_bucket]
    exact hpre
  have hi : T.index x < T.length.toNat := bucketOf_lt h.pos x
  have hlen : pre.length < fuel := by
    have hchain : (chains (T.index x)).length ≤ (nodes T chains).length :=
      (List.sublist_flatten_of_mem (List.mem_map_of_mem (List.mem_range.mpr hi))).length_le
    have hnodes := h.length_nodes_le
    rw [hsplit, List.length_append] at hchain
    omega
  refine ⟨walk hstart (fun a ha hmatch => hne a ha hmatch.2) ?_ hlen, read_endSlot hstart⟩
  cases hk : latest key k ls with
  | none => exact Or.inl rfl
  | some b =>
    have hb := latest_some hk
    exact Or.inr ⟨b, rfl, hx b hb.1 hb.2, hb.2⟩

theorem Holding.lookup_eq (h : Holding key hash T chains ls)
    (hx : ∀ a ∈ ls, key a = k → hash a = x) (hfuel : ls.length < fuel) :
    lookup key hash fuel k x T = some (.ofOption (latest key k ls)) := by
  obtain ⟨pre, post, hsplit, hpre, hne, -, -⟩ := h.split hx
  have hfind := h.find hsplit hpre hne hx hfuel
  rw [lookup, hfind.1, Option.map_some, hfind.2]

variable [DecidableEq ι]

theorem Holding.resize (h : Holding key hash T chains ls) (hle : T.elem.toNat ≤ 2 ^ 30)
    (hclear : ∀ n, Looping.loop (growTurn T.elem) fuel 4 = some n → Cleared mem (T.array + 1) n)
    (hfuel : ls.length + 16 < fuel) :
    ∃ T' chains', resize hash mem fuel T = some T' ∧ Holding key hash T' chains' ls := by
  have helem : T.elem.toNat = (nodes T chains).length := by
    rw [h.length_nodes]
    exact h.elem
  have hlen := h.length_nodes_le
  obtain ⟨T', chains', hrun, hpos, hcoh, hmem, hcount, hrest⟩ :=
    resize_coherent h.coherent helem hle hclear (by omega) (by omega)
  refine ⟨T', chains', hrun, hpos, hcoh, ?_, ?_, ?_⟩
  · intro a
    rw [hmem, h.mem_nodes]
  · rw [hcount]
    exact h.elem
  · intro a ha
    rw [hrest a, h.fresh a ha]
    intro hnode
    exact ha (latest_some (h.mem_nodes.mp hnode)).1

end Holding

section Insert

variable [DecidableEq ι] {pre : List ι}

/-- The table with the pointer to the new node `l` written behind the nodes `pre`. -/
def attach (pre : List ι) (i : ℕ) (l : ι) (T : HashTable ι) : HashTable ι :=
  (T.write (endSlot (.bucket T.array i) pre) (.node l)).setPrev l (endSlot (.bucket T.array i) pre)

omit [DecidableEq κ] in
theorem attach_read {p : Slot ι} {i : ℕ} (hp : p ≠ endSlot (.bucket T.array i) pre) :
    (attach pre i l T).read p = T.read p := by
  have hsame : (attach pre i l T).read p =
      (T.write (endSlot (.bucket T.array i) pre) (.node l)).read p := by
    cases p <;> rfl
  rw [hsame, read_write_of_ne hp]

omit [DecidableEq κ] in
@[simp] theorem attach_fields (pre : List ι) (i : ℕ) (l : ι) (T : HashTable ι) :
    (attach pre i l T).length = T.length ∧ (attach pre i l T).elem = T.elem ∧
      (attach pre i l T).array = T.array :=
  ⟨write_length, write_elem, write_array⟩

omit [DecidableEq κ] in
theorem attach_index (pre : List ι) (i : ℕ) (l : ι) (T : HashTable ι) (x : UInt32) :
    (attach pre i l T).index x = T.index x := by
  rw [index, index, (attach_fields pre i l T).1]

omit [DecidableEq κ] in
theorem attach_next {i : ℕ} (ha : a ∉ pre) : (attach pre i l T).next a = T.next a := by
  apply attach_read (p := .next a)
  intro heq
  cases endSlot_mem (.bucket T.array i) pre with
  | inl hend =>
    rw [hend] at heq
    cases heq
  | inr hend =>
    obtain ⟨c, hc, hend⟩ := hend
    rw [hend] at heq
    cases heq
    exact ha hc

omit [DecidableEq κ] in
theorem attach_list {i j : ℕ} (hij : j ≠ i) : (attach pre i l T).list j = T.list j := by
  have hne : Slot.bucket T.array j ≠ endSlot (.bucket T.array i) pre := by
    intro heq
    cases endSlot_mem (.bucket T.array i) pre with
    | inl hend =>
      rw [hend] at heq
      cases heq
      exact hij rfl
    | inr hend =>
      obtain ⟨c, -, hend⟩ := hend
      rw [hend] at heq
      cases heq
  have hread := attach_read (l := l) hne
  have harray := (attach_fields pre i l T).2.2
  rw [read_bucket, ← harray, read_bucket] at hread
  exact hread

omit [DecidableEq κ] in
/-- The chain `pre`, whatever came behind it, goes on to the new node and ends there. -/
theorem attach_segment {i : ℕ} {q : Pointer ι} (hpre : Segment T.next (T.list i) pre q)
    (hnd : pre.Nodup) (hl : l ∉ pre) (hnull : T.next l = .null) :
    Segment (attach pre i l T).next ((attach pre i l T).list i) (pre ++ [l]) .null := by
  have hstart : Segment T.next (T.read (.bucket T.array i)) pre q := by
    rw [read_bucket]
    exact hpre
  have hlive : Live T (.bucket T.array i) := rfl
  have hwrite := segment_write (v := .node l) hstart hlive hnd nofun
  have hread : (attach pre i l T).read (.bucket T.array i) = (attach pre i l T).list i := by
    rw [← (attach_fields pre i l T).2.2, read_bucket]
  rw [← hread]
  apply segment_append.mpr
  refine ⟨.node l, hwrite, rfl, ?_⟩
  have hnext := attach_next (T := T) (i := i) (l := l) hl
  exact hnext.trans hnull

omit [DecidableEq ι] in
theorem Holding.mem_of_mem (h : Holding key hash T chains ls) {i : ℕ} (hi : i < T.length.toNat)
    (ha : a ∈ chains i) : a ∈ ls := by
  have hhome := h.coherent.home i hi a ha
  exact (latest_some ((h.mem a).mp (hhome ▸ ha))).1

/-- The chains stay apart, each in its bucket. -/
theorem Holding.attach_coherent (h : Holding key hash T chains ls) (hl : l ∉ ls) {q : Pointer ι}
    (hsub : pre.Sublist (chains (T.index (hash l))))
    (hpre : Segment T.next (T.list (T.index (hash l))) pre q) :
    Coherent hash (attach pre (T.index (hash l)) l T)
      (Function.update chains (T.index (hash l)) (pre ++ [l])) := by
  have hi : T.index (hash l) < T.length.toNat := bucketOf_lt h.pos _
  have hlpre : l ∉ pre := fun hmem => hl (h.mem_of_mem hi (hsub.mem hmem))
  have hnd : pre.Nodup := (h.coherent.nodup _ hi).sublist hsub
  have hlength : (attach pre (T.index (hash l)) l T).length = T.length := (attach_fields ..).1
  refine ⟨?_, ?_, ?_⟩
  · intro j hj
    rw [hlength] at hj
    by_cases hji : j = T.index (hash l)
    · rw [hji, Function.update_self]
      exact attach_segment hpre hnd hlpre (h.fresh l hl)
    · rw [Function.update_of_ne hji, attach_list hji]
      apply (h.coherent.chain j hj).congr
      intro a ha
      apply attach_next
      intro hapre
      apply hji
      rw [← h.coherent.home j hj a ha, h.coherent.home _ hi a (hsub.mem hapre)]
  · intro j hj a ha
    rw [hlength] at hj
    rw [attach_index]
    by_cases hji : j = T.index (hash l)
    · rw [hji, Function.update_self, List.mem_append, List.mem_singleton] at ha
      rw [hji]
      cases ha with
      | inl hapre => exact h.coherent.home _ hi a (hsub.mem hapre)
      | inr hal => rw [hal]
    · rw [Function.update_of_ne hji] at ha
      exact h.coherent.home j hj a ha
  · intro j hj
    rw [hlength] at hj
    by_cases hji : j = T.index (hash l)
    · rw [hji, Function.update_self]
      exact hnd.append (List.nodup_singleton l) (List.disjoint_singleton.mpr hlpre)
    · rw [Function.update_of_ne hji]
      exact h.coherent.nodup j hj

/-- The new node takes the place of the one with its key, which is last in its chain, or goes to the
end. -/
theorem Holding.attach_mem (h : Holding key hash T chains ls)
    (hhash : ∀ a b, key a = key b → hash a = hash b)
    (hsplit : chains (T.index (hash l)) = pre ++ (latest key (key l) ls).toList)
    (hne : ∀ a ∈ pre, key a ≠ key l) (a : ι) :
    a ∈ Function.update chains (T.index (hash l)) (pre ++ [l])
        ((attach pre (T.index (hash l)) l T).index (hash a)) ↔
      latest key (key a) (ls ++ [l]) = some a := by
  rw [attach_index, latest_append]
  by_cases hkey : key l = key a
  · -- the bucket of the key: it has the new node and no other one with the key
    rw [if_pos hkey, hhash l a hkey, Function.update_self, List.mem_append, List.mem_singleton,
      Option.some.injEq]
    constructor
    · intro ha
      cases ha with
      | inl hapre => exact absurd hkey.symm (hne a hapre)
      | inr hal => exact hal.symm
    · intro hla
      exact Or.inr hla.symm
  · rw [if_neg hkey, ← h.mem a]
    by_cases hia : T.index (hash a) = T.index (hash l)
    · have hal : a ≠ l := fun heq => hkey (heq ▸ rfl)
      have hold : a ∉ (latest key (key l) ls).toList := by
        rw [Option.mem_toList]
        intro hsome
        exact hkey (latest_some hsome).2.symm
      rw [hia, Function.update_self, hsplit, List.mem_append, List.mem_append,
        List.mem_singleton]
      exact or_congr_right (iff_of_false hal hold)
    · rw [Function.update_of_ne hia]

theorem Holding.attach_fresh (h : Holding key hash T chains ls)
    (hsub : pre.Sublist (chains (T.index (hash l)))) (ha : a ∉ ls ++ [l]) :
    (attach pre (T.index (hash l)) l T).next a = .null := by
  have hi : T.index (hash l) < T.length.toNat := bucketOf_lt h.pos _
  rw [List.mem_append, not_or] at ha
  have hapre : a ∉ pre := fun hmem => ha.1 (h.mem_of_mem hi (hsub.mem hmem))
  rw [attach_next hapre]
  exact h.fresh a ha.1

end Insert

section Run

variable [DecidableEq ι] {ms : List ι}

/-- A node that is replaced is the last one of its chain. A new key is one of `2 ^ 30` at most, and if
the table grows for it, nothing but zeros is in the memory of the new array. -/
structure Fits (key : ι → κ) (hash : ι → UInt32) (mem : ℕ → ℕ → Pointer ι) (fuel : ℕ)
    (T : HashTable ι) (l : ι) : Prop where
  last : ∀ b, lookup key hash fuel (key l) (hash l) T = some (.node b) → T.next b = .null
  room : lookup key hash fuel (key l) (hash l) T = some .null → T.elem.toNat < 2 ^ 30
  clear : lookup key hash fuel (key l) (hash l) T = some .null → T.elem + 1 > T.length →
    ∀ n, Looping.loop (growTurn (T.elem + 1)) fuel 4 = some n → Cleared mem (T.array + 1) n

/-- Every insertion of a run meets the condition. -/
def Meets (key : ι → κ) (hash : ι → UInt32) (mem : ℕ → ℕ → Pointer ι) (fuel : ℕ) :
    HashTable ι → List ι → Prop
  | _, [] => True
  | T, l :: ls => Fits key hash mem fuel T l ∧
    ∀ r T', insertNode key hash mem fuel l T = some (r, T') → Meets key hash mem fuel T' ls

/-- The table is a map from the keys to the nodes that were inserted last. -/
structure IsMap (key : ι → κ) (hash : ι → UInt32) (fuel : ℕ) (T : HashTable ι) (ls : List ι) :
    Prop where
  lookup : ∀ k x, (∀ a ∈ ls, key a = k → hash a = x) →
    lookup key hash fuel k x T = some (.ofOption (latest key k ls))
  reachable : ∀ a, latest key (key a) ls = some a →
    ∃ xs, Segment T.next (T.list (T.index (hash a))) xs .null ∧ a ∈ xs
  elem : T.elem.toNat = (ls.map key).toFinset.card

omit [DecidableEq ι] in
theorem Holding.isMap (h : Holding key hash T chains ls) (hfuel : ls.length < fuel) :
    IsMap key hash fuel T ls where
  lookup _ _ hx := h.lookup_eq hx hfuel
  reachable a ha := ⟨_, h.coherent.chain _ (bucketOf_lt h.pos _), (h.mem a).mpr ha⟩
  elem := h.elem

omit [DecidableEq ι] in
theorem card_append (key : ι → κ) (ls : List ι) (l : ι) :
    ((ls ++ [l]).map key).toFinset.card =
      (ls.map key).toFinset.card + if latest key (key l) ls = none then 1 else 0 := by
  have hset : ((ls ++ [l]).map key).toFinset = insert (key l) (ls.map key).toFinset := by
    ext k
    simp [eq_comm]
  have hmem : key l ∈ (ls.map key).toFinset ↔ latest key (key l) ls ≠ none := by
    rw [ne_eq, latest_none, List.mem_toFinset, List.mem_map]
    simp only [ne_eq, not_forall, not_not, exists_prop]
  rw [hset]
  by_cases hnone : latest key (key l) ls = none
  · rw [if_pos hnone, Finset.card_insert_of_notMem fun hin => hmem.mp hin hnone]
  · rw [if_neg hnone, Finset.insert_eq_of_mem (hmem.mpr hnone), Nat.add_zero]

/-- A key that is there: the pointer to its node is replaced. -/
theorem Holding.insert_present (h : Holding key hash T chains ls)
    (hhash : ∀ a b, key a = key b → hash a = hash b) (hl : l ∉ ls)
    (hfits : Fits key hash mem fuel T l) (hfuel : ls.length < fuel)
    (hk : latest key (key l) ls = some b) :
    ∃ T' chains', insertNode key hash mem fuel l T = some (.node b, T') ∧
      Holding key hash T' chains' (ls ++ [l]) := by
  have hx : ∀ a ∈ ls, key a = key l → hash a = hash l := fun a _ hkey => hhash a l hkey
  have hlookup := h.lookup_eq hx hfuel
  obtain ⟨pre, post, hsplit, hpre, hne, -, hsome⟩ := h.split hx
  obtain ⟨hfind, hread⟩ := h.find hsplit hpre hne hx hfuel
  rw [hk] at hlookup
  rw [hsome b hk (hfits.last b hlookup), List.append_nil] at hsplit
  have hsub : pre.Sublist (chains (T.index (hash l))) := hsplit ▸ List.sublist_append_left ..
  have hfields := attach_fields pre (T.index (hash l)) l T
  have hrun : insertNode key hash mem fuel l T =
      some (.node b, HashTable.attach pre (T.index (hash l)) l T) := by
    rw [insertNode, hfind, Option.bind_some, hread, hk]
    rfl
  refine ⟨_, _, hrun, ?_, h.attach_coherent hl hsub hpre, h.attach_mem hhash hsplit hne, ?_,
    fun a => h.attach_fresh hsub⟩
  · rw [hfields.1]
    exact h.pos
  · rw [hfields.2.1, h.elem, card_append, hk]
    rfl

/-- A new key: its node goes to the end of the chain, and the table may grow. -/
theorem Holding.insert_absent (h : Holding key hash T chains ls)
    (hhash : ∀ a b, key a = key b → hash a = hash b) (hl : l ∉ ls)
    (hfits : Fits key hash mem fuel T l) (hfuel : ls.length + 17 < fuel)
    (hk : latest key (key l) ls = none) :
    ∃ T' chains', insertNode key hash mem fuel l T = some (.null, T') ∧
      Holding key hash T' chains' (ls ++ [l]) := by
  have hx : ∀ a ∈ ls, key a = key l → hash a = hash l := fun a _ hkey => hhash a l hkey
  have hfuel' : ls.length < fuel := by omega
  have hlookup := h.lookup_eq hx hfuel'
  obtain ⟨pre, post, hsplit, hpre, hne, hnone, -⟩ := h.split hx
  obtain ⟨hfind, hread⟩ := h.find hsplit hpre hne hx hfuel'
  rw [hk] at hlookup
  rw [hnone hk, List.append_nil] at hsplit
  have hsub : pre.Sublist (chains (T.index (hash l))) := hsplit ▸ List.sublist_append_left ..
  have hcoh := h.attach_coherent hl hsub hpre
  have hfields := attach_fields pre (T.index (hash l)) l T
  let T₂ := { HashTable.attach pre (T.index (hash l)) l T with
    elem := (HashTable.attach pre (T.index (hash l)) l T).elem + 1 }
  have hroom := hfits.room hlookup
  have helem : T₂.elem.toNat = T.elem.toNat + 1 := by
    have hsum : T₂.elem = T.elem + 1 := congrArg (· + 1) hfields.2.1
    rw [hsum, UInt32.toNat_add]
    have hone : (1 : UInt32).toNat = 1 := rfl
    omega
  have hholding : Holding key hash T₂
      (Function.update chains (T.index (hash l)) (pre ++ [l])) (ls ++ [l]) := by
    refine ⟨?_, ⟨hcoh.chain, hcoh.home, hcoh.nodup⟩, h.attach_mem hhash hsplit hne, ?_,
      fun a => h.attach_fresh hsub⟩
    · have hlength : T₂.length = T.length := hfields.1
      rw [hlength]
      exact h.pos
    · rw [helem, h.elem, card_append, if_pos hk]
  have hrun : insertNode key hash mem fuel l T =
      if T₂.elem > T₂.length then (HashTable.resize hash mem fuel T₂).map fun T => (.null, T)
      else some (.null, T₂) := by
    rw [insertNode, hfind, Option.bind_some, hread, hk]
    rfl
  by_cases hgrow : T₂.elem > T₂.length
  · have hgrow' : T.elem + 1 > T.length := by
      rw [← hfields.1, ← hfields.2.1]
      exact hgrow
    have hclear : ∀ n, Looping.loop (growTurn T₂.elem) fuel 4 = some n →
        Cleared mem (T₂.array + 1) n := by
      have hsum : T₂.elem = T.elem + 1 := congrArg (· + 1) hfields.2.1
      have harray : T₂.array = T.array := hfields.2.2
      rw [hsum, harray]
      exact hfits.clear hlookup hgrow'
    have hlen : (ls ++ [l]).length + 16 < fuel := by
      rw [List.length_append, List.length_singleton]
      omega
    obtain ⟨T', chains', hresize, hT'⟩ := hholding.resize (by omega) hclear hlen
    refine ⟨T', chains', ?_, hT'⟩
    rw [hrun, if_pos hgrow, hresize]
    rfl
  · exact ⟨T₂, _, hrun.trans (if_neg hgrow), hholding⟩

theorem Holding.insert (h : Holding key hash T chains ls)
    (hhash : ∀ a b, key a = key b → hash a = hash b) (hl : l ∉ ls)
    (hfits : Fits key hash mem fuel T l) (hfuel : ls.length + 17 < fuel) :
    ∃ T' chains', insertNode key hash mem fuel l T = some (.ofOption (latest key (key l) ls), T') ∧
      Holding key hash T' chains' (ls ++ [l]) := by
  cases hk : latest key (key l) ls with
  | none => exact h.insert_absent hhash hl hfits hfuel hk
  | some b => exact h.insert_present hhash hl hfits (by omega) hk

theorem Holding.inserts (h : Holding key hash T chains ls)
    (hhash : ∀ a b, key a = key b → hash a = hash b) (hnd : (ls ++ ms).Nodup)
    (hmeets : Meets key hash mem fuel T ms) (hfuel : (ls ++ ms).length + 16 < fuel) :
    ∃ T' chains', inserts key hash mem fuel ms T = some (replaced key ls ms, T') ∧
      Holding key hash T' chains' (ls ++ ms) := by
  induction ms generalizing ls T chains with
  | nil =>
    rw [List.append_nil]
    exact ⟨T, chains, rfl, h⟩
  | cons l ms ih =>
    rw [List.append_cons] at hnd hfuel ⊢
    have hl : l ∉ ls := by
      intro hmem
      have hnd' := (List.nodup_append.mp hnd).1
      exact (List.nodup_append.mp hnd').2.2 l hmem l (List.mem_singleton_self l) rfl
    have hlen : ls.length + 17 < fuel := by
      rw [List.length_append, List.length_append, List.length_singleton] at hfuel
      omega
    obtain ⟨T₁, chains₁, hrun, hT₁⟩ := h.insert hhash hl hmeets.1 hlen
    obtain ⟨T', chains', hruns, hT'⟩ := ih hT₁ hnd (hmeets.2 _ _ hrun) hfuel
    refine ⟨T', chains', ?_, hT'⟩
    rw [HashTable.inserts, hrun, Option.bind_some, hruns]
    rfl

/-- The constructor makes an empty table. -/
theorem new_holding (key : ι → κ) (hclear : Cleared mem 1 4) (hfuel : 16 < fuel) :
    ∃ T chains, new hash mem fuel = some T ∧ Holding key hash T chains [] := by
  let T₀ : HashTable ι := ⟨0, 0, fun _ => .wild, 0, fun _ => .null, fun _ => none⟩
  have hcoh : Coherent hash T₀ fun _ => [] := ⟨nofun, nofun, nofun⟩
  have hnodes : nodes T₀ (fun _ => []) = [] := rfl
  have hfour : ∀ n, Looping.loop (growTurn T₀.elem) fuel 4 = some n → Cleared mem (T₀.array + 1) n := by
    intro n hn
    have hone : Looping.loop (growTurn 0) 1 4 = some 4 := rfl
    rw [Looping.loop_unique hn hone]
    exact hclear
  have hlen : (nodes T₀ fun _ => []).length < fuel := by
    rw [hnodes, List.length_nil]
    omega
  obtain ⟨T, chains, hrun, hpos, hT, hmem, helem, hrest⟩ :=
    resize_coherent hcoh rfl (Nat.zero_le _) hfour (by omega) hlen
  refine ⟨T, chains, hrun, hpos, hT, ?_, ?_, ?_⟩
  · intro a
    rw [hmem, hnodes]
    exact iff_of_false List.not_mem_nil nofun
  · rw [helem]
    rfl
  · intro a _
    exact hrest a List.not_mem_nil

theorem Meets.take (h : Meets key hash mem fuel T ls) (n : ℕ) :
    Meets key hash mem fuel T (ls.take n) := by
  induction ls generalizing T n with
  | nil =>
    rw [List.take_nil]
    trivial
  | cons l ls ih =>
    cases n with
    | zero => trivial
    | succ n => exact ⟨h.1, fun r T' hrun => ih (h.2 r T' hrun) n⟩

/-- After each insertion of a run that meets the condition the table is a map, and every insertion
returns the node that it replaces. -/
theorem inserts_map (hhash : ∀ a b, key a = key b → hash a = hash b) (hnd : ls.Nodup)
    (hclear : Cleared mem 1 4) (hfuel : ls.length + 16 < fuel)
    (hmeets : ∀ T, new hash mem fuel = some T → Meets key hash mem fuel T ls) (n : ℕ) :
    ∃ T₀ T, new hash mem fuel = some T₀ ∧
      inserts key hash mem fuel (ls.take n) T₀ = some (replaced key [] (ls.take n), T) ∧
      IsMap key hash fuel T (ls.take n) := by
  have hfuel₀ : 16 < fuel := by omega
  obtain ⟨T₀, chains, hnew, hT₀⟩ := new_holding key hclear hfuel₀
  have hlen : (ls.take n).length ≤ ls.length := List.length_take_le' ..
  have hnd' : ([] ++ ls.take n).Nodup := hnd.sublist (List.take_sublist ..)
  have hfuel' : ([] ++ ls.take n).length + 16 < fuel := by
    rw [List.nil_append]
    omega
  obtain ⟨T, chains', hrun, hT⟩ := hT₀.inserts hhash hnd' ((hmeets T₀ hnew).take n) hfuel'
  exact ⟨T₀, T, hnew, hrun, hT.isMap (by omega)⟩

omit [DecidableEq ι] [DecidableEq κ] in
theorem cleared_null (array : ℕ) (n : UInt32) :
    Cleared (fun _ _ => (.null : Pointer ι)) array n := fun _ _ => ite_self _

/-- The second node replaces the first one, which is alone in its chain. -/
theorem inserts_map_again : ∃ T₀ T : HashTable ℕ,
    new (fun _ => 0) (fun _ _ => .null) 20 = some T₀ ∧
      inserts (fun _ => 7) (fun _ => 0) (fun _ _ => .null) 20 [0, 1] T₀ =
        some ([.null, .node 0], T) ∧ IsMap (fun _ => 7) (fun _ => 0) 20 T [0, 1] := by
  have hmeets : ∀ T, new (fun _ : ℕ => 0) (fun _ _ => .null) 20 = some T →
      Meets (fun _ => 7) (fun _ => 0) (fun _ _ => .null) 20 T [0, 1] := by
    intro T hT
    cases hT
    refine ⟨⟨nofun, fun _ => by decide, fun _ _ n _ => cleared_null _ n⟩, ?_⟩
    intro r T hT
    cases hT
    refine ⟨⟨?_, nofun, nofun⟩, fun _ _ _ => trivial⟩
    intro b hb
    cases hb
    rfl
  exact inserts_map (fun _ _ _ => rfl) (by decide) (cleared_null 1 4) (by decide) hmeets 2

theorem replaced_node_loses_next : ∃ T₀ T : HashTable ℕ, ∃ rs,
    new (fun _ => 0) (fun _ _ => .null) 20 = some T₀ ∧
      inserts (fun a => if a = 2 then 0 else a) (fun _ => 0) (fun _ _ => .null) 20 [0, 1, 2] T₀ =
        some (rs, T) ∧
      ¬ IsMap (fun a => if a = 2 then 0 else a) (fun _ => 0) 20 T [0, 1, 2] := by
  refine ⟨_, _, _, rfl, rfl, ?_⟩
  intro hmap
  have hfound := hmap.lookup 1 0 fun _ _ _ => rfl
  cases hfound

end Run

end HashTable

end MgRaffle.Utils
