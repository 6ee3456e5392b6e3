import MgRaffle.Library.LinkedTree
import MgRaffle.Library.Looping

namespace LinkedTree

variable {ι κ : Type*} [LinearOrder κ] (key : ι → κ) (k : κ)

/-- The keys increase from left to right. -/
def Ordered (t : BinaryTree ι) : Prop := (inorder t).Pairwise fun a b => key a < key b

/-- The key `k` belongs at the end of the path. -/
structure Around (fs : List (Frame ι)) : Prop where
  before : ∀ x ∈ before fs, key x < k
  after : ∀ x ∈ after fs, k < key x

/-- Searches the subtree `t` at the end of a path, down to the node with the key `k`, or to the
null link where it is missing. -/
def descend : List (Frame ι) → BinaryTree ι → List (Frame ι) × BinaryTree ι
  | fs, .nil => (fs, .nil)
  | fs, .node a l r =>
    if k < key a then descend (⟨.left, a, r⟩ :: fs) l
    else if key a < k then descend (⟨.right, a, l⟩ :: fs) r
    else (fs, .node a l r)

variable {key k} {a : ι} {t l r : BinaryTree ι} {fs : List (Frame ι)}

theorem ordered_fill : Ordered key (fill fs t) ↔ Ordered key t ∧
    (∀ x ∈ inorder t, Around key (key x) fs) ∧ Ordered key (fill fs .nil) := by
  have haround (x : ι) : Around key (key x) fs ↔ (∀ y ∈ before fs, key y < key x) ∧
      ∀ y ∈ after fs, key x < key y := ⟨fun h => ⟨h.1, h.2⟩, fun h => ⟨h.1, h.2⟩⟩
  simp only [Ordered, inorder_fill, inorder_nil, List.nil_append, List.pairwise_append,
    List.mem_append, haround]
  grind

variable (key k fs t) in
theorem fill_descend : fill (descend key k fs t).1 (descend key k fs t).2 = fill fs t := by
  induction t generalizing fs with
  | nil => rfl
  | node a l r ihl ihr =>
    rw [descend]
    split_ifs with hlt hgt
    · exact ihl _
    · exact ihr _
    · rfl

theorem descend_congr {key' : ι → κ} (h : ∀ a ∈ inorder t, key' a = key a) :
    descend key' k fs t = descend key k fs t := by
  induction t generalizing fs with
  | nil => rfl
  | node a l r ihl ihr =>
    rw [descend, descend, h a (by simp), ihl fun b hb => h b (by simp [hb]),
      ihr fun b hb => h b (by simp [hb])]

theorem around_descend (ho : Ordered key t) (h : Around key k fs) :
    Around key k (descend key k fs t).1 := by
  induction t generalizing fs with
  | nil => exact h
  | node a l r ihl ihr =>
    obtain ⟨hl, hr, hlr⟩ := List.pairwise_append.mp ho
    rw [List.pairwise_cons] at hr
    rw [descend]
    split_ifs with hlt hgt
    · refine ihl hl ⟨?_, ?_⟩
      · simpa [before, Frame.before] using h.before
      · simp only [after, Frame.after, List.mem_append, List.mem_cons]
        rintro x ((rfl | hx) | hx)
        · exact hlt
        · exact hlt.trans (hr.1 x hx)
        · exact h.after x hx
    · refine ihr hr.2 ⟨?_, ?_⟩
      · simp only [before, Frame.before, List.mem_append, List.mem_singleton]
        rintro x (hx | hx | rfl)
        · exact h.before x hx
        · exact (hlr x hx a (by simp)).trans hgt
        · exact hgt
      · simpa [after, Frame.after] using h.after
    · exact h

theorem descend_found (h : (descend key k fs t).2 = .node a l r) : key a = k := by
  induction t generalizing fs with
  | nil => cases h
  | node b l r ihl ihr =>
    rw [descend] at h
    split_ifs at h with hlt hgt
    · exact ihl h
    · exact ihr h
    · cases h
      exact le_antisymm (not_lt.mp hlt) (not_lt.mp hgt)

variable (key k fs t) in
theorem length_descend : (descend key k fs t).1.length ≤ fs.length + t.height := by
  induction t generalizing fs with
  | nil => simp [descend]
  | node a l r ihl ihr =>
    rw [descend, BinaryTree.height]
    split_ifs
    · apply (ihl _).trans
      rw [List.length_cons]
      omega
    · apply (ihr _).trans
      rw [List.length_cons]
      omega
    · exact Nat.le_add_right _ _

/-- A loop that goes down the tree `w` as the search does, from states that stand for a path and
the subtree at its end. -/
theorem loop_descend {σ ρ : Type*} {body : σ → Option (σ ⊕ ρ)} {w : BinaryTree ι} {fuel : ℕ}
    (state : List (Frame ι) → BinaryTree ι → σ) (result : List (Frame ι) → BinaryTree ι → ρ)
    (hnil : ∀ fs, fill fs .nil = w → body (state fs .nil) = some (.inr (result fs .nil)))
    (hnode : ∀ fs a l r, fill fs (.node a l r) = w → body (state fs (.node a l r)) = some (
      if k < key a then .inl (state (⟨.left, a, r⟩ :: fs) l)
      else if key a < k then .inl (state (⟨.right, a, l⟩ :: fs) r)
      else .inr (result fs (.node a l r))))
    (hw : fill fs t = w) (hfuel : t.height < fuel) :
    Looping.loop body fuel (state fs t) =
      some (result (descend key k fs t).1 (descend key k fs t).2) := by
  obtain ⟨n, rfl⟩ : ∃ n, fuel = n + 1 := ⟨fuel - 1, by omega⟩
  induction t generalizing fs n with
  | nil => exact Looping.loop_inr (hnil fs hw)
  | node a l r ihl ihr =>
    rw [BinaryTree.height] at hfuel
    obtain ⟨m, rfl⟩ : ∃ m, n = m + 1 := ⟨n - 1, by omega⟩
    have hbody := hnode fs a l r hw
    rw [descend]
    split_ifs at hbody ⊢ with hlt hgt
    · rw [← ihl hw m (by omega)]
      exact Looping.loop_inl hbody
    · rw [← ihr hw m (by omega)]
      exact Looping.loop_inl hbody
    · exact Looping.loop_inr hbody

theorem around_nil : Around key k ([] : List (Frame ι)) := ⟨nofun, nofun⟩

/-- The search finds the key exactly if the tree has it. -/
theorem exists_key_iff (ho : Ordered key t) :
    (∃ x ∈ inorder t, key x = k) ↔ (descend key k [] t).2 ≠ .nil := by
  have hfill : fill (descend key k [] t).1 (descend key k [] t).2 = t := fill_descend ..
  have haround := around_descend (k := k) ho around_nil
  constructor
  · rintro ⟨x, hx, rfl⟩ hnil
    rw [← hfill, hnil, inorder_fill, inorder_nil, List.nil_append, List.mem_append] at hx
    rcases hx with hx | hx
    · exact lt_irrefl _ (haround.before x hx)
    · exact lt_irrefl _ (haround.after x hx)
  · intro hne
    cases hsub : (descend key k [] t).2 with
    | nil => exact absurd hsub hne
    | node a l r =>
      refine ⟨a, ?_, descend_found hsub⟩
      rw [← hfill, hsub, mem_inorder_fill]
      simp

theorem Ordered.eq_of_key {b : ι} (h : Ordered key t) (ha : a ∈ inorder t) (hb : b ∈ inorder t)
    (heq : key a = key b) : a = b := by
  have hnd : ((inorder t).map key).Nodup := (List.pairwise_map.mpr h).imp fun hlt => hlt.ne
  exact List.inj_on_of_nodup_map hnd ha hb heq

/-- A new node with the key `k` keeps the order at the place where the search has ended. -/
theorem ordered_insert (ho : Ordered key (fill fs .nil)) (h : Around key (key a) fs) :
    Ordered key (fill fs (.node a .nil .nil)) := by
  rw [ordered_fill]
  refine ⟨by simp [Ordered], ?_, ho⟩
  simpa using h

theorem Around.side {f : Frame ι} (h : Around key k (f :: fs)) :
    (f.side = .left → k < key f.id) ∧ (f.side = .right → key f.id < k) := by
  constructor
  · intro hs
    apply h.after
    simp [LinkedTree.after, Frame.after, hs]
  · intro hs
    apply h.before
    simp [LinkedTree.before, Frame.before, hs]

end LinkedTree
