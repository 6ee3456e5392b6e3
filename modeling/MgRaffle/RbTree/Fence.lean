import MgRaffle.RbTree.Delete

namespace MgRaffle.RbTree

open LinkedTree LinkedTree.Links

variable {ι : Type*} [DecidableEq ι] {S : Set ι} {L₀ L L' : Links ι} {N N' : Nodes ι} {d : Side}
  {a b p node : ι} {q : Option ι} {fuel : ℕ}

omit [DecidableEq ι] in
theorem mem_some (ha : a ∈ S) : ∀ y ∈ some a, y ∈ S := by
  rintro y ⟨⟩
  exact ha

theorem hookLeft_fenced (h : Fenced S L₀ L) (hb : b ∈ S) : Fenced S L₀ (hookLeft q a b L) := by
  cases q with
  | none => exact h.setRoot (mem_some hb)
  | some p =>
    rw [hookLeft]
    split_ifs
    · exact h.setChild (mem_some hb)
    · exact h.setChild (mem_some hb)
    · exact h

theorem hookRight_fenced (h : Fenced S L₀ L) (hb : b ∈ S) : Fenced S L₀ (hookRight q a b L) := by
  cases q with
  | none => exact h.setRoot (mem_some hb)
  | some p =>
    rw [hookRight]
    split_ifs
    · exact h.setChild (mem_some hb)
    · exact h.setChild (mem_some hb)

theorem setParentOf_fenced (h : Fenced S L₀ L) (hq : ∀ y ∈ q, y ∈ S) (ha : a ∈ S) :
    Fenced S L₀ (L.setParentOf (some a) q) := by
  cases q with
  | none => exact h
  | some x => exact h.setParent (hq x rfl) (mem_some ha)

theorem leftRotate_fenced (h : Fenced S L₀ L) (ha : a ∈ S) (hrot : leftRotate a L = some L') :
    Fenced S L₀ L' := by
  obtain ⟨b, hb, hrest⟩ := Option.bind_eq_some_iff.mp hrot
  cases hrest
  have hbS : b ∈ S := h.child a ha .right b hb
  have hmid : ∀ y ∈ L.child .left b, y ∈ S := h.child b hbS .left
  have hmid' := setParentOf_fenced h hmid ha
  refine ((hookLeft_fenced ((hmid'.setChild ?_).setParent hbS (h.parent a ha)) hbS).setChild
    (mem_some ha)).setParent ha (mem_some hbS)
  rw [setParentOf_child]
  exact hmid

theorem rightRotate_fenced (h : Fenced S L₀ L) (ha : a ∈ S) (hrot : rightRotate a L = some L') :
    Fenced S L₀ L' := by
  obtain ⟨b, hb, hrest⟩ := Option.bind_eq_some_iff.mp hrot
  cases hrest
  have hbS : b ∈ S := h.child a ha .left b hb
  have hmid : ∀ y ∈ L.child .right b, y ∈ S := h.child b hbS .right
  have hmid' := setParentOf_fenced h hmid ha
  refine ((hookRight_fenced ((hmid'.setChild ?_).setParent hbS (h.parent a ha)) hbS).setChild
    (mem_some ha)).setParent ha (mem_some hbS)
  rw [setParentOf_child]
  exact hmid

theorem relink_fenced (h : Fenced S L₀ N.toLinks) (ha : a ∈ S)
    (hrot : N.relink (rotate d a) = some N') : Fenced S L₀ N'.toLinks := by
  obtain ⟨L', hL', rfl⟩ := Option.map_eq_some_iff.mp hrot
  cases d with
  | left => exact leftRotate_fenced h ha hL'
  | right => exact rightRotate_fenced h ha hL'

section Loop

theorem blackenSibling_fenced {c : ι} (h : Fenced S L₀ N.toLinks) (hp : p ∈ S) (hb : b ∈ S)
    (hrun : blackenSibling d p b N = some (c, N')) : c ∈ S ∧ Fenced S L₀ N'.toLinks := by
  rw [blackenSibling] at hrun
  split_ifs at hrun with hred
  · obtain ⟨N₁, hrot, hrest⟩ := Option.bind_eq_some_iff.mp hrun
    obtain ⟨c', hc, hrest⟩ := Option.bind_eq_some_iff.mp hrest
    cases hrest
    have hN₁ := relink_fenced (N := (N.setType b .black).setType p .red) h hp hrot
    exact ⟨hN₁.child p hp _ c hc, hN₁⟩
  · cases hrun
    exact ⟨hb, h⟩

theorem reddenOuter_fenced {c : ι} (h : Fenced S L₀ N.toLinks) (hp : p ∈ S) (hb : b ∈ S)
    (hrun : reddenOuter d p b N = some (c, N')) : c ∈ S ∧ Fenced S L₀ N'.toLinks := by
  obtain ⟨outer, -, hrun⟩ := Option.bind_eq_some_iff.mp hrun
  split_ifs at hrun with hred
  · cases hrun
    exact ⟨hb, h⟩
  · obtain ⟨inner, -, hrun⟩ := Option.bind_eq_some_iff.mp hrun
    obtain ⟨N₁, hrot, hrun⟩ := Option.bind_eq_some_iff.mp hrun
    obtain ⟨c', hc, hrun⟩ := Option.bind_eq_some_iff.mp hrun
    cases hrun
    have hN₁ := relink_fenced (N := (N.setType inner .black).setType b .red) h hb hrot
    exact ⟨hN₁.child p hp _ c hc, hN₁⟩

theorem borrow_fenced (h : Fenced S L₀ N.toLinks) (hp : p ∈ S)
    (hrun : borrow d p b N = some N') : Fenced S L₀ N'.toLinks := by
  obtain ⟨outer, -, hrot⟩ := Option.bind_eq_some_iff.mp hrun
  exact relink_fenced (N := ((N.setType b (N.type p)).setType p .black).setType outer .black) h hp hrot

/-- What the loop has at hand stays within the fence. -/
def Inside (S : Set ι) (L₀ : Links ι) : (ι × Option ι × Nodes ι) ⊕ (ι × Nodes ι) → Prop
  | .inl (_, p, N) => (∀ y ∈ p, y ∈ S) ∧ Fenced S L₀ N.toLinks
  | .inr (_, N) => Fenced S L₀ N.toLinks

theorem fixSide_fenced {test : ι → Nodes ι → Option Bool}
    {r : (ι × Option ι × Nodes ι) ⊕ (ι × Nodes ι)} (h : Fenced S L₀ N.toLinks) (hp : p ∈ S)
    (hrun : fixSide d test p node N = some r) : Inside S L₀ r := by
  obtain ⟨b, hb, hrun⟩ := Option.bind_eq_some_iff.mp hrun
  obtain ⟨⟨c, N₁⟩, hblacken, hrun⟩ := Option.bind_eq_some_iff.mp hrun
  obtain ⟨hc, hN₁⟩ := blackenSibling_fenced h hp (h.child p hp _ b hb) hblacken
  simp only at hrun
  split at hrun
  · cases hrun
  · cases hrun
    exact ⟨hN₁.parent p hp, hN₁⟩
  · obtain ⟨⟨c', N₂⟩, hredden, hrun⟩ := Option.bind_eq_some_iff.mp hrun
    obtain ⟨-, hN₂⟩ := reddenOuter_fenced hN₁ hp hc hredden
    obtain ⟨N₃, hborrow, hrun⟩ := Option.bind_eq_some_iff.mp hrun
    cases hrun
    exact borrow_fenced hN₂ hp hborrow

theorem fixTurn_fenced {s : ι × Option ι × Nodes ι}
    {r : (ι × Option ι × Nodes ι) ⊕ (ι × Nodes ι)} (h : Inside S L₀ (.inl s))
    (hrun : fixTurn s = some r) : Inside S L₀ r := by
  obtain ⟨node, p, N⟩ := s
  obtain ⟨hp, hN⟩ := h
  rw [fixTurn] at hrun
  split_ifs at hrun
  · cases hrun
    exact hN
  · obtain ⟨q, rfl, hside⟩ := Option.bind_eq_some_iff.mp hrun
    split_ifs at hside
    · exact fixSide_fenced hN (hp q rfl) hside
    · exact fixSide_fenced hN (hp q rfl) hside

theorem fixLoop_fenced {s : ι × Option ι × Nodes ι} {r : ι × Nodes ι}
    (h : Inside S L₀ (.inl s)) (hrun : Looping.loop fixTurn fuel s = some r) :
    Inside S L₀ (.inr r) :=
  Looping.loop_partial (fun s => Inside S L₀ (.inl s)) (fun r => Inside S L₀ (.inr r))
    (fun _ _ hs ht => fixTurn_fenced hs ht) (fun _ _ hs hr => fixTurn_fenced hs hr) h hrun

end Loop

section Unlink

theorem deleteLeafNode_fenced (h : Fenced S L₀ N.toLinks)
    (hrun : deleteLeafNode a N = some N') : Fenced S L₀ N'.toLinks := by
  rw [deleteLeafNode] at hrun
  split_ifs at hrun
  · cases hrun
    exact h.setRoot nofun
  · obtain ⟨p, -, hrun⟩ := Option.bind_eq_some_iff.mp hrun
    cases hrun
    exact h.setChild nofun

theorem exchange_fenced (h : Fenced S L₀ L) (ha : a ∈ S) (hb : b ∈ S) :
    Fenced S L₀ (exchange a b L) := by
  have h₁ := h.setChild (d := .left) (a := a) (h.child b hb .left)
  have h₂ := h₁.setChild (d := .left) (a := b) (h.child a ha .left)
  have h₃ := h₂.setChild (d := .right) (a := a) (h₂.child b hb .right)
  have h₄ := h₃.setChild (d := .right) (a := b) (h₂.child a ha .right)
  exact (h₄.setParent ha (h.parent b hb)).setParent hb (h.parent a ha)

theorem changeRbNode_fenced {c : Bool} (h : Fenced S L₀ N.toLinks) (ha : a ∈ S) (hb : b ∈ S)
    (hrun : changeRbNode a b c N = some N') : Fenced S L₀ N'.toLinks := by
  rw [changeRbNode] at hrun
  have hlinks (q : ι) : Fenced S L₀ (hookRight (some q) b a (hookRight (N.parent a) a b
      (exchange a b N.toLinks))) :=
    hookRight_fenced (hookRight_fenced (exchange_fenced h ha hb) hb) ha
  split_ifs at hrun with hab
  · cases hrun
    exact h
  · obtain ⟨q, -, hrun⟩ := Option.bind_eq_some_iff.mp hrun
    cases hrun
    exact hlinks q
  · obtain ⟨q, -, hrun⟩ := Option.bind_eq_some_iff.mp hrun
    cases hrun
    exact hlinks q

theorem unlinkNode_fenced (h : Fenced S L₀ N.toLinks) (ha : a ∈ S)
    (hrun : unlinkNode fuel a N = some N') : Fenced S L₀ N'.toLinks := by
  rw [unlinkNode] at hrun
  split_ifs at hrun
  · exact deleteLeafNode_fenced h hrun
  · split at hrun
    · rename_i l hl
      obtain ⟨N₁, hchange, hrun⟩ := Option.bind_eq_some_iff.mp hrun
      exact deleteLeafNode_fenced (changeRbNode_fenced h ha (h.child a ha _ l hl) hchange) hrun
    · split at hrun
      · rename_i r hr
        obtain ⟨N₁, hchange, hrun⟩ := Option.bind_eq_some_iff.mp hrun
        exact deleteLeafNode_fenced (changeRbNode_fenced h ha (h.child a ha _ r hr) hchange) hrun
      · obtain ⟨⟨node, N₁⟩, hloop, hrun⟩ := Option.bind_eq_some_iff.mp hrun
        have hN₁ : Fenced S L₀ N₁.toLinks := fixLoop_fenced (s := (a, N.parent a, N)) ⟨h.parent a ha, h⟩ hloop
        exact deleteLeafNode_fenced (N := N₁.setType node .black) hN₁ hrun

end Unlink

end MgRaffle.RbTree
