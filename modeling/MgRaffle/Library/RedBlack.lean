import MgRaffle.Library.LinkedTree

namespace LinkedTree

variable {ι : Type*} (red : ι → Bool)

/-- What a node adds to the black height. -/
def weight (a : ι) : ℕ := if red a then 0 else 1

/-- Every path down to a null link passes `n` black nodes. -/
def Balanced : BinaryTree ι → ℕ → Prop
  | .nil, n => n = 0
  | .node a l r, n => ∃ m, Balanced l m ∧ Balanced r m ∧ n = m + weight red a

def RootRed (t : BinaryTree ι) : Prop := ∃ a ∈ rootOf t, red a

/-- No red node has a red child. -/
def Proper : BinaryTree ι → Prop
  | .nil => True
  | .node a l r => (red a → ¬ RootRed red l ∧ ¬ RootRed red r) ∧ Proper l ∧ Proper r

structure RedBlack (t : BinaryTree ι) : Prop where
  rootBlack : ¬ RootRed red t
  proper : Proper red t
  balanced : ∃ n, Balanced red t n

/-- A tree of black height `n` at the end of the path makes the whole one balanced. -/
def BalancedPath : List (Frame ι) → ℕ → Prop
  | [], _ => True
  | f :: fs, n => Balanced red f.sibling n ∧ BalancedPath fs (n + weight red f.id)

/-- No red node beside the path, or on it, has a red child, the end of the path aside. -/
def ProperPath : List (Frame ι) → Prop
  | [] => True
  | f :: fs => Proper red f.sibling ∧
    (red f.id → ¬ RootRed red f.sibling ∧ ∀ a ∈ above fs, red a = false) ∧ ProperPath fs

variable {red} {red' : ι → Bool} {d : Side} {a : ι} {t u : BinaryTree ι} {f : Frame ι}
  {fs : List (Frame ι)} {n m : ℕ}

theorem weight_of_red (h : red a = true) : weight red a = 0 := by rw [weight, if_pos h]

theorem weight_of_black (h : red a = false) : weight red a = 1 := by
  rw [weight, if_neg (by rw [h]; decide)]

@[simp] theorem not_rootRed_nil : ¬ RootRed red (.nil : BinaryTree ι) := by
  rintro ⟨a, ha, -⟩
  cases ha

@[simp] theorem rootRed_node (a : ι) (l r : BinaryTree ι) : RootRed red (.node a l r) ↔ red a := by
  simp [RootRed, rootOf]

@[simp] theorem rootRed_join : RootRed red (join d a t u) ↔ red a := by
  cases d <;> simp [join]

theorem balanced_join :
    Balanced red (join d a t u) n ↔ ∃ m, Balanced red t m ∧ Balanced red u m ∧ n = m + weight red a := by
  cases d
  · rfl
  · simp only [join, Balanced]
    constructor <;> rintro ⟨m, h₁, h₂, h₃⟩ <;> exact ⟨m, h₂, h₁, h₃⟩

theorem proper_join : Proper red (join d a t u) ↔
    (red a → ¬ RootRed red t ∧ ¬ RootRed red u) ∧ Proper red t ∧ Proper red u := by
  cases d
  · rfl
  · simp only [join, Proper]
    tauto

theorem Balanced.unique (h : Balanced red t n) (h' : Balanced red t m) : n = m := by
  induction t generalizing n m with
  | nil => exact Eq.trans h h'.symm
  | node a l r ihl _ =>
    obtain ⟨k, hl, -, rfl⟩ := h
    obtain ⟨k', hl', -, rfl⟩ := h'
    rw [ihl hl hl']

/-- The colours of a tree are all that its balance depends on. -/
theorem Balanced.congr (h : Balanced red t n) (hred : ∀ a ∈ inorder t, red' a = red a) :
    Balanced red' t n := by
  induction t generalizing n with
  | nil => exact h
  | node a l r ihl ihr =>
    obtain ⟨m, hl, hr, rfl⟩ := h
    refine ⟨m, ihl hl fun b hb => hred b (by simp [hb]), ihr hr fun b hb => hred b (by simp [hb]), ?_⟩
    rw [weight, weight, hred a (by simp)]

theorem rootRed_congr (hred : ∀ a ∈ inorder t, red' a = red a) :
    RootRed red' t ↔ RootRed red t := by
  cases t with
  | nil => simp
  | node a l r => rw [rootRed_node, rootRed_node, hred a (by simp)]

theorem Proper.congr (h : Proper red t) (hred : ∀ a ∈ inorder t, red' a = red a) :
    Proper red' t := by
  induction t with
  | nil => trivial
  | node a l r ihl ihr =>
    obtain ⟨ha, hl, hr⟩ := h
    have hredl : ∀ b ∈ inorder l, red' b = red b := fun b hb => hred b (by simp [hb])
    have hredr : ∀ b ∈ inorder r, red' b = red b := fun b hb => hred b (by simp [hb])
    refine ⟨?_, ihl hl hredl, ihr hr hredr⟩
    rw [hred a (by simp), rootRed_congr hredl, rootRed_congr hredr]
    exact ha

theorem RedBlack.congr (h : RedBlack red t) (hred : ∀ a ∈ inorder t, red' a = red a) :
    RedBlack red' t := by
  obtain ⟨hroot, hp, n, hn⟩ := h
  refine ⟨?_, hp.congr hred, n, hn.congr hred⟩
  rwa [rootRed_congr hred]

theorem redBlack_leaf (ha : red a = false) : RedBlack red (.node a .nil .nil) :=
  ⟨by simp [ha], by simp [Proper], _, 0, rfl, rfl, rfl⟩

theorem BalancedPath.congr (h : BalancedPath red fs n) (hred : ∀ a ∈ pathNodes fs, red' a = red a) :
    BalancedPath red' fs n := by
  induction fs generalizing n with
  | nil => trivial
  | cons f fs ih =>
    obtain ⟨hs, hfs⟩ := h
    refine ⟨hs.congr fun a ha => hred a (mem_pathNodes_cons.mpr (Or.inr (Or.inl ha))), ?_⟩
    have hw : weight red' f.id = weight red f.id := by
      rw [weight, weight, hred f.id (mem_pathNodes_cons.mpr (Or.inl rfl))]
    rw [hw]
    exact ih hfs fun a ha => hred a (mem_pathNodes_cons.mpr (Or.inr (Or.inr ha)))

theorem ProperPath.congr (h : ProperPath red fs) (hred : ∀ a ∈ pathNodes fs, red' a = red a) :
    ProperPath red' fs := by
  induction fs with
  | nil => trivial
  | cons f fs ih =>
    obtain ⟨hs, hf, hfs⟩ := h
    have hsib : ∀ a ∈ inorder f.sibling, red' a = red a := fun a ha =>
      hred a (mem_pathNodes_cons.mpr (Or.inr (Or.inl ha)))
    have hpath : ∀ a ∈ pathNodes fs, red' a = red a := fun a ha =>
      hred a (mem_pathNodes_cons.mpr (Or.inr (Or.inr ha)))
    refine ⟨hs.congr hsib, ?_, ih hfs hpath⟩
    rw [hred f.id (mem_pathNodes_cons.mpr (Or.inl rfl)), rootRed_congr hsib]
    intro hf'
    refine ⟨(hf hf').1, ?_⟩
    intro a ha
    rw [hpath a (above_mem ha)]
    exact (hf hf').2 a ha

theorem balanced_fill : (∃ k, Balanced red (fill fs t) k) ↔
    ∃ n, Balanced red t n ∧ BalancedPath red fs n := by
  induction fs generalizing t with
  | nil => simp [BalancedPath]
  | cons f fs ih =>
    rw [fill_cons, ih, Frame.attach]
    constructor
    · rintro ⟨n, ht, hfs⟩
      obtain ⟨m, htm, hs, rfl⟩ := balanced_join.mp ht
      exact ⟨m, htm, hs, hfs⟩
    · rintro ⟨n, ht, hs, hfs⟩
      exact ⟨_, balanced_join.mpr ⟨n, ht, hs, rfl⟩, hfs⟩

theorem proper_fill : Proper red (fill fs t) ↔ Proper red t ∧ ProperPath red fs ∧
    (RootRed red t → ∀ a ∈ above fs, red a = false) := by
  induction fs generalizing t with
  | nil => simp [ProperPath]
  | cons f fs ih =>
    rw [fill_cons, ih, Frame.attach, proper_join, rootRed_join, ProperPath]
    simp only [above_cons, Option.mem_some_iff, forall_eq']
    rw [← Bool.not_eq_true (red f.id)]
    tauto

theorem eq_nil_of_balanced (h : Balanced red t 0) (hred : ¬ RootRed red t) : t = .nil := by
  cases t with
  | nil => rfl
  | node a l r =>
    obtain ⟨m, -, -, hm⟩ := h
    rw [rootRed_node, Bool.not_eq_true] at hred
    rw [weight_of_black hred] at hm
    omega

/-- A node with one child is black, and the child is a red leaf. -/
theorem only_child (hp : Proper red (join d a t .nil)) (hb : Balanced red (join d a t .nil) n)
    (ht : t ≠ .nil) : red a = false ∧ ∃ c, t = .node c .nil .nil := by
  obtain ⟨m, hbt, hm, -⟩ := balanced_join.mp hb
  obtain rfl : m = 0 := hm
  obtain ⟨ha, hpt, -⟩ := proper_join.mp hp
  cases t with
  | nil => exact absurd rfl ht
  | node c l r =>
    obtain ⟨k, hl, hr, hk⟩ := hbt
    obtain rfl : k = 0 := by omega
    obtain ⟨hc, -, -⟩ := hpt
    have hred : red c = true := by
      by_contra hblack
      rw [weight_of_black (by simpa using hblack)] at hk
      omega
    obtain ⟨hnl, hnr⟩ := hc hred
    refine ⟨?_, c, by rw [eq_nil_of_balanced hl hnl, eq_nil_of_balanced hr hnr]⟩
    by_contra hra
    exact (ha (by simpa using hra)).1 (by rwa [rootRed_node])

section Repair

/-- All is well with the colours but for the end of the path, where one red node may be below
another. -/
structure Repair (red : ι → Bool) (fs : List (Frame ι)) (t : BinaryTree ι) (n : ℕ) : Prop where
  proper : Proper red t
  properPath : ProperPath red fs
  balanced : Balanced red t n
  balancedPath : BalancedPath red fs n

variable {g : Frame ι}

/-- A red leaf is put where there was none. -/
theorem repair_leaf (h : RedBlack red (fill fs .nil)) (ha : red a = true) :
    Repair red fs (.node a .nil .nil) 0 := by
  obtain ⟨n, hn, hpath⟩ := balanced_fill.mp h.balanced
  obtain rfl : n = 0 := hn
  refine ⟨by simp [Proper], (proper_fill.mp h.proper).2.1, ⟨0, rfl, rfl, ?_⟩, hpath⟩
  rw [weight_of_red ha]

theorem Repair.done (h : Repair red fs t n) (hblack : ∀ a ∈ above fs, red a = false) :
    Proper red (fill fs t) ∧ ∃ k, Balanced red (fill fs t) k :=
  ⟨proper_fill.mpr ⟨h.proper, h.properPath, fun _ => hblack⟩,
    balanced_fill.mpr ⟨n, h.balanced, h.balancedPath⟩⟩

theorem Repair.congr (h : Repair red fs t n) (hred : ∀ a ∈ inorder (fill fs t), red' a = red a) :
    Repair red' fs t n where
  proper := h.proper.congr fun a ha => hred a (mem_inorder_fill.mpr (Or.inl ha))
  properPath := h.properPath.congr fun a ha => hred a (mem_inorder_fill.mpr (Or.inr ha))
  balanced := h.balanced.congr fun a ha => hred a (mem_inorder_fill.mpr (Or.inl ha))
  balancedPath := h.balancedPath.congr fun a ha => hred a (mem_inorder_fill.mpr (Or.inr ha))

/-- A red root turns black. -/
theorem blacken (hnd : (inorder t).Nodup) (hp : Proper red t) (hb : Balanced red t n)
    (hred : RootRed red t) (hred' : ∀ a ∈ rootOf t, red' a = false)
    (helse : ∀ x ∈ inorder t, x ∉ rootOf t → red' x = red x) :
    Proper red' t ∧ Balanced red' t (n + 1) := by
  cases t with
  | nil => exact absurd hred not_rootRed_nil
  | node a l r =>
    obtain ⟨-, -, hal, har, -⟩ := (nodup_join (d := .left)).mp hnd
    obtain ⟨-, hpl, hpr⟩ := hp
    obtain ⟨m, hbl, hbr, rfl⟩ := hb
    have hl : ∀ x ∈ inorder l, red' x = red x := by
      intro x hx
      apply helse x (by simp [hx])
      rintro ⟨⟩
      exact hal hx
    have hr : ∀ x ∈ inorder r, red' x = red x := by
      intro x hx
      apply helse x (by simp [hx])
      rintro ⟨⟩
      exact har hx
    rw [rootRed_node] at hred
    have hblack : red' a = false := hred' a rfl
    refine ⟨⟨?_, hpl.congr hl, hpr.congr hr⟩, m, hbl.congr hl, hbr.congr hr, ?_⟩
    · simp [hblack]
    · rw [weight_of_red hred, weight_of_black hblack]

theorem redBlack_of_root (hnd : (inorder t).Nodup) (hp : Proper red t) (hb : ∃ n, Balanced red t n)
    (hred' : ∀ a ∈ rootOf t, red' a = false)
    (helse : ∀ x ∈ inorder t, x ∉ rootOf t → red' x = red x) : RedBlack red' t := by
  obtain ⟨n, hb⟩ := hb
  have hroot : ¬ RootRed red' t := by
    rintro ⟨a, ha, hred⟩
    rw [hred' a ha] at hred
    cases hred
  by_cases hred : RootRed red t
  · obtain ⟨hp', hb'⟩ := blacken hnd hp hb hred hred' helse
    exact ⟨hroot, hp', n + 1, hb'⟩
  · have hsame : ∀ x ∈ inorder t, red' x = red x := by
      intro x hx
      by_cases hxr : x ∈ rootOf t
      · rw [hred' x hxr]
        by_contra hne
        exact hred ⟨x, hxr, by simpa using hne⟩
      · exact helse x hx hxr
    exact ⟨hroot, hp.congr hsame, n, hb.congr hsame⟩

section Grandparent

variable (hnd : (inorder (fill (f :: g :: fs) t)).Nodup)

include hnd

theorem ne_of_mem_parts {x : ι}
    (hx : x ∈ inorder t ∨ x ∈ inorder f.sibling ∨ x ∈ inorder g.sibling ∨ x ∈ pathNodes fs) :
    x ≠ f.id ∧ x ≠ g.id := by
  have hperm := (perm_fill (f :: g :: fs) t).nodup_iff.mp hnd
  simp only [pathNodes, List.flatMap_cons, List.nodup_append, List.nodup_cons, List.mem_cons,
    List.mem_append, List.cons_append] at hperm hx
  grind

theorem not_mem_uncle {x : ι}
    (hx : x ∈ inorder t ∨ x ∈ inorder f.sibling ∨ x ∈ pathNodes fs) : x ∉ inorder g.sibling := by
  have hperm := (perm_fill (f :: g :: fs) t).nodup_iff.mp hnd
  simp only [pathNodes, List.flatMap_cons, List.nodup_append, List.nodup_cons, List.mem_cons,
    List.mem_append, List.cons_append] at hperm hx
  grind

theorem nodup_uncle : (inorder g.sibling).Nodup := by
  have hpath := (nodup_fill.mp hnd).2.1
  simp only [pathNodes, List.flatMap_cons, List.nodup_append, List.nodup_cons,
    List.cons_append] at hpath
  exact hpath.2.2.1.2.1

variable (h : Repair red (f :: g :: fs) t n) (hf : red f.id = true) (hf' : red' f.id = false)
  (hg' : red' g.id = true)

include h hf hf' hg'

/-- The grandparent turns red, and its two children black. -/
theorem Repair.recolour (hu : RootRed red g.sibling) (hu' : ∀ u ∈ rootOf g.sibling, red' u = false)
    (helse : ∀ x, x ≠ f.id → x ≠ g.id → x ∉ rootOf g.sibling → red' x = red x) :
    Repair red' fs (g.attach (f.attach t)) (n + 1) := by
  obtain ⟨hpf, hf₁, hpg, -, hpfs⟩ := h.properPath
  obtain ⟨hbf, hbg, hbfs⟩ := h.balancedPath
  have hg : red g.id = false := (hf₁ hf).2 g.id rfl
  rw [weight_of_red hf, Nat.add_zero] at hbg hbfs
  rw [weight_of_black hg] at hbfs
  have hsame {x : ι} (hx : x ∈ inorder t ∨ x ∈ inorder f.sibling ∨ x ∈ pathNodes fs) :
      red' x = red x := by
    obtain ⟨hxf, hxg⟩ := ne_of_mem_parts hnd (x := x) (by tauto)
    exact helse x hxf hxg fun hxu => not_mem_uncle hnd hx (rootOf_mem hxu)
  have ht : ∀ x ∈ inorder t, red' x = red x := fun x hx => hsame (Or.inl hx)
  have hfs : ∀ x ∈ inorder f.sibling, red' x = red x := fun x hx => hsame (Or.inr (Or.inl hx))
  have hpath : ∀ x ∈ pathNodes fs, red' x = red x := fun x hx => hsame (Or.inr (Or.inr hx))
  have hblack : ¬ RootRed red' g.sibling := by
    rintro ⟨u, hu, hred⟩
    rw [hu' u hu] at hred
    cases hred
  obtain ⟨hproper, hbalanced⟩ := blacken (nodup_uncle hnd) hpg hbg hu hu' (fun x hx hroot =>
    helse x (ne_of_mem_parts hnd (x := x) (by tauto)).1 (ne_of_mem_parts hnd (x := x) (by tauto)).2
      hroot)
  refine ⟨?_, hpfs.congr hpath, ?_, hbfs.congr hpath⟩
  · refine proper_join.mpr ⟨fun _ => ⟨?_, hblack⟩, ?_, hproper⟩
    · rw [Frame.attach, rootRed_join, hf']
      decide
    · refine proper_join.mpr ⟨?_, h.proper.congr ht, hpf.congr hfs⟩
      intro hred
      rw [hf'] at hred
      cases hred
  · refine balanced_join.mpr ⟨n + 1, balanced_join.mpr ⟨n, h.balanced.congr ht, hbf.congr hfs, ?_⟩,
      hbalanced, ?_⟩
    · rw [weight_of_black hf']
    · rw [weight_of_red hg', Nat.add_zero]

theorem Repair.rotate {e : Side} (hu : ¬ RootRed red g.sibling)
    (helse : ∀ x, x ≠ f.id → x ≠ g.id → red' x = red x) :
    Repair red' (⟨f.side, f.id, join e g.id g.sibling f.sibling⟩ :: fs) t n := by
  obtain ⟨hpf, hf₁, hpg, -, hpfs⟩ := h.properPath
  obtain ⟨hbf, hbg, hbfs⟩ := h.balancedPath
  have hg : red g.id = false := (hf₁ hf).2 g.id rfl
  rw [weight_of_red hf, Nat.add_zero] at hbg hbfs
  rw [weight_of_black hg] at hbfs
  have hsame {x : ι} (hx : x ∈ inorder t ∨ x ∈ inorder f.sibling ∨ x ∈ inorder g.sibling ∨
      x ∈ pathNodes fs) : red' x = red x :=
    helse x (ne_of_mem_parts hnd hx).1 (ne_of_mem_parts hnd hx).2
  have ht : ∀ x ∈ inorder t, red' x = red x := fun x hx => hsame (Or.inl hx)
  have hfs : ∀ x ∈ inorder f.sibling, red' x = red x := fun x hx => hsame (Or.inr (Or.inl hx))
  have hgs : ∀ x ∈ inorder g.sibling, red' x = red x := fun x hx =>
    hsame (Or.inr (Or.inr (Or.inl hx)))
  have hpath : ∀ x ∈ pathNodes fs, red' x = red x := fun x hx =>
    hsame (Or.inr (Or.inr (Or.inr hx)))
  refine ⟨h.proper.congr ht, ⟨?_, ?_, hpfs.congr hpath⟩, h.balanced.congr ht, ?_, ?_⟩
  · refine proper_join.mpr ⟨fun _ => ⟨?_, ?_⟩, hpg.congr hgs, hpf.congr hfs⟩
    · rwa [rootRed_congr hgs]
    · rw [rootRed_congr hfs]
      exact (hf₁ hf).1
  · intro hred
    rw [hf'] at hred
    cases hred
  · refine balanced_join.mpr ⟨n, hbg.congr hgs, hbf.congr hfs, ?_⟩
    rw [weight_of_red hg', Nat.add_zero]
  · rw [weight_of_black hf']
    exact hbfs.congr hpath

end Grandparent

end Repair

section Short

/-- The tree at the end of the path passes one black node too few. -/
structure Short (red : ι → Bool) (fs : List (Frame ι)) (t : BinaryTree ι) (n : ℕ) : Prop where
  properPath : ProperPath red fs
  balanced : Balanced red t n
  balancedPath : BalancedPath red fs (n + 1)

variable {b : ι} {v : BinaryTree ι}

theorem Short.sibling_ne_nil (h : Short red (f :: fs) t n) : f.sibling ≠ .nil := by
  intro hs
  obtain ⟨hb, -⟩ := h.balancedPath
  rw [hs] at hb
  cases hb

/-- The sibling at the end of a path shares no node with the rest of the tree. -/
theorem sibling_apart (hnd : (inorder (fill (f :: fs) t)).Nodup) :
    (inorder f.sibling).Nodup ∧ f.id ∉ inorder f.sibling ∧
      ∀ x, x ∈ inorder t ∨ x ∈ pathNodes fs → x ≠ f.id ∧ x ∉ inorder f.sibling := by
  have hperm := (perm_fill (f :: fs) t).nodup_iff.mp hnd
  simp only [pathNodes, List.flatMap_cons, List.nodup_append, List.nodup_cons, List.mem_cons,
    List.mem_append, List.cons_append] at hperm ⊢
  grind

theorem parent_ne_sibling {p : ι} (hnd : (inorder (fill (⟨d, p, join d b u v⟩ :: fs) t)).Nodup) :
    p ≠ b := by
  rintro rfl
  exact (sibling_apart hnd).2.1 mem_join_self

/-- The sibling loses a black node, too: what is short now is the tree of the parent. -/
theorem Short.up (h : Short red (f :: fs) t n) (hs : f.sibling = join d b u v)
    (hnd : (inorder (fill (f :: fs) t)).Nodup) (hb : red b = false) (hb' : red' b = true)
    (helse : ∀ x, x ≠ b → red' x = red x) :
    Short red' fs (f.attach t) (n + weight red f.id) := by
  obtain ⟨hnds, hfs, hapart⟩ := sibling_apart hnd
  obtain ⟨hbal, hpath⟩ := h.balancedPath
  rw [hs] at hnds hfs hapart hbal
  obtain ⟨-, -, hbu, hbv, -⟩ := nodup_join.mp hnds
  have hbs : b ∈ inorder (join d b u v) := mem_join_self
  have hne (x : ι) (hx : x ∈ inorder t ∨ x ∈ pathNodes fs) : red' x = red x := by
    apply helse
    rintro rfl
    exact (hapart _ hx).2 hbs
  have hf : red' f.id = red f.id := helse _ fun heq => hfs (heq ▸ hbs)
  obtain ⟨m, hu, hv, hm⟩ := balanced_join.mp hbal
  rw [weight_of_black hb] at hm
  obtain rfl : n = m := by omega
  refine ⟨h.properPath.2.2.congr fun x hx => hne x (Or.inr hx), ?_, ?_⟩
  · refine balanced_join.mpr ⟨n, h.balanced.congr fun x hx => hne x (Or.inl hx), ?_, ?_⟩
    · rw [hs]
      refine balanced_join.mpr ⟨n, hu.congr ?_, hv.congr ?_, ?_⟩
      · exact fun x hx => helse x fun heq => hbu (heq ▸ hx)
      · exact fun x hx => helse x fun heq => hbv (heq ▸ hx)
      · rw [weight_of_red hb', Nat.add_zero]
    · rw [weight, weight, hf]
  · rw [Nat.add_right_comm]
    exact hpath.congr fun x hx => hne x (Or.inr hx)

/-- A red sibling comes up in the place of the parent, which turns red below it. -/
theorem Short.rotate (h : Short red (f :: fs) t n) (hs : f.sibling = join f.side b u v)
    (hnd : (inorder (fill (f :: fs) t)).Nodup) (hb : red b = true) (hb' : red' b = false)
    (hf' : red' f.id = true) (helse : ∀ x, x ≠ b → x ≠ f.id → red' x = red x) :
    Short red' (⟨f.side, f.id, u⟩ :: ⟨f.side, b, v⟩ :: fs) t n ∧ ¬ RootRed red' u := by
  obtain ⟨hnds, hfs, hapart⟩ := sibling_apart hnd
  obtain ⟨hbal, hpath⟩ := h.balancedPath
  obtain ⟨hproper, hf₁, hpfs⟩ := h.properPath
  rw [hs] at hnds hfs hapart hbal hproper hf₁
  obtain ⟨-, -, hbu, hbv, -⟩ := nodup_join.mp hnds
  obtain ⟨hchildren, hpu, hpv⟩ := proper_join.mp hproper
  have hbs : b ∈ inorder (join f.side b u v) := mem_join_self
  -- the parent of a red node is black
  have hf : red f.id = false := by
    by_contra hred
    exact (hf₁ (by simpa using hred)).1 (rootRed_join.mpr hb)
  have hne (x : ι) (hx : x ∈ inorder t ∨ x ∈ pathNodes fs) : red' x = red x := by
    obtain ⟨hxf, hxs⟩ := hapart x hx
    exact helse x (fun heq => hxs (heq ▸ hbs)) hxf
  have hne' (x : ι) (hx : x ∈ inorder u ∨ x ∈ inorder v) : red' x = red x := by
    apply helse x
    · rintro rfl
      exact hx.elim hbu hbv
    · rintro rfl
      exact hfs (mem_inorder_join.mpr (Or.inr hx))
  obtain ⟨m, hu, hv, hm⟩ := balanced_join.mp hbal
  rw [weight_of_red hb, Nat.add_zero] at hm
  subst hm
  rw [weight_of_black hf] at hpath
  have hcu : ¬ RootRed red' u := by
    rw [rootRed_congr fun x hx => hne' x (Or.inl hx)]
    exact (hchildren hb).1
  refine ⟨⟨⟨hpu.congr fun x hx => hne' x (Or.inl hx), ?_, hpv.congr fun x hx => hne' x (Or.inr hx),
    ?_, hpfs.congr fun x hx => hne x (Or.inr hx)⟩, h.balanced.congr fun x hx => hne x (Or.inl hx),
    hu.congr fun x hx => hne' x (Or.inl hx), ?_, ?_⟩, hcu⟩
  · refine fun _ => ⟨hcu, ?_⟩
    rintro a ⟨⟩
    exact hb'
  · intro hred
    rw [hb'] at hred
    cases hred
  · rw [weight_of_red hf', Nat.add_zero]
    exact hv.congr fun x hx => hne' x (Or.inr hx)
  · rw [weight_of_red hf', weight_of_black hb', Nat.add_zero]
    exact hpath.congr fun x hx => hne x (Or.inr hx)

/-- Below a black sibling with a red inner child, that child comes up and turns black. -/
theorem Short.redden {p c : ι} {u₁ u₂ : BinaryTree ι}
    (h : Short red (⟨d, p, join d b (join d c u₁ u₂) v⟩ :: fs) t n)
    (hnd : (inorder (fill (⟨d, p, join d b (join d c u₁ u₂) v⟩ :: fs) t)).Nodup)
    (hb : red b = false) (hc : red c = true) (hv : ¬ RootRed red v) (hc' : red' c = false)
    (hb' : red' b = true) (helse : ∀ x, x ≠ b → x ≠ c → red' x = red x) :
    Short red' (⟨d, p, join d c u₁ (join d b u₂ v)⟩ :: fs) t n := by
  obtain ⟨hnds, hps, hapart⟩ := sibling_apart hnd
  obtain ⟨hbal, hpath⟩ := h.balancedPath
  obtain ⟨hproper, hp₁, hpfs⟩ := h.properPath
  dsimp only at hnds hps hapart hbal hpath hproper hp₁
  obtain ⟨hndu, -, hbu, hbv, huv⟩ := nodup_join.mp hnds
  obtain ⟨-, -, hc₁, hc₂, -⟩ := nodup_join.mp hndu
  have hbs : b ∈ inorder (join d b (join d c u₁ u₂) v) := mem_join_self
  have hcu : c ∈ inorder (join d c u₁ u₂) := mem_join_self
  have hcs : c ∈ inorder (join d b (join d c u₁ u₂) v) := mem_inorder_join.mpr (Or.inr (Or.inl hcu))
  rw [mem_inorder_join, not_or, not_or] at hbu
  have hne (x : ι) (hx : x ∈ inorder t ∨ x ∈ pathNodes fs) : red' x = red x := by
    apply helse
    · intro heq
      exact (hapart x hx).2 (heq ▸ hbs)
    · intro heq
      exact (hapart x hx).2 (heq ▸ hcs)
  have hne₁ : ∀ x ∈ inorder u₁, red' x = red x := fun x hx =>
    helse x (fun heq => hbu.2.1 (heq ▸ hx)) fun heq => hc₁ (heq ▸ hx)
  have hne₂ : ∀ x ∈ inorder u₂, red' x = red x := fun x hx =>
    helse x (fun heq => hbu.2.2 (heq ▸ hx)) fun heq => hc₂ (heq ▸ hx)
  have hnev : ∀ x ∈ inorder v, red' x = red x := fun x hx =>
    helse x (fun heq => hbv (heq ▸ hx)) fun heq => huv hcu (heq ▸ hx)
  have hp : red' p = red p := helse p (fun heq => hps (heq ▸ hbs)) fun heq => hps (heq ▸ hcs)
  obtain ⟨m, hu, hvm, hm⟩ := balanced_join.mp hbal
  rw [weight_of_black hb] at hm
  obtain rfl : n = m := by omega
  obtain ⟨k, hu₁, hu₂, hk⟩ := balanced_join.mp hu
  rw [weight_of_red hc, Nat.add_zero] at hk
  subst hk
  obtain ⟨-, hpu, hpv⟩ := proper_join.mp hproper
  obtain ⟨hcred, hpu₁, hpu₂⟩ := proper_join.mp hpu
  have hblack := hcred hc
  have hblackC : ¬ RootRed red' (join d c u₁ (join d b u₂ v)) := by
    rw [rootRed_join, hc']
    exact Bool.false_ne_true
  refine ⟨⟨?_, ?_, hpfs.congr fun x hx => hne x (Or.inr hx)⟩, ?_, ?_, ?_⟩
  · refine proper_join.mpr ⟨?_, hpu₁.congr hne₁, proper_join.mpr ⟨?_, hpu₂.congr hne₂,
      hpv.congr hnev⟩⟩
    · intro hred
      rw [hc'] at hred
      cases hred
    · intro _
      rw [rootRed_congr hne₂, rootRed_congr hnev]
      exact ⟨hblack.2, hv⟩
  · intro hred
    rw [hp] at hred
    refine ⟨hblackC, ?_⟩
    intro a ha
    rw [hne a (Or.inr (above_mem ha))]
    exact (hp₁ hred).2 a ha
  · exact h.balanced.congr fun x hx => hne x (Or.inl hx)
  · refine balanced_join.mpr ⟨n, hu₁.congr hne₁, balanced_join.mpr ⟨n, hu₂.congr hne₂,
      hvm.congr hnev, ?_⟩, ?_⟩
    · rw [weight_of_red hb', Nat.add_zero]
    · rw [weight_of_black hc']
  · have hw : weight red' p = weight red p := by rw [weight, weight, hp]
    dsimp only
    rw [hw]
    exact hpath.congr fun x hx => hne x (Or.inr hx)

/-- A black sibling with a red outer child comes up with the colour of the parent, and the parent and
the child are black below it: nothing is short any more. -/
theorem Short.lend {p : ι} (h : Short red (⟨d, p, join d b u v⟩ :: fs) t n) (ht : Proper red t)
    (hnd : (inorder (fill (⟨d, p, join d b u v⟩ :: fs) t)).Nodup) (hb : red b = false)
    (hv : RootRed red v) (hb' : red' b = red p) (hp' : red' p = false)
    (hv' : ∀ a ∈ rootOf v, red' a = false)
    (helse : ∀ x, x ≠ b → x ≠ p → x ∉ rootOf v → red' x = red x) :
    Proper red' (fill (⟨d, p, u⟩ :: ⟨d, b, v⟩ :: fs) t) ∧
      ∃ k, Balanced red' (fill (⟨d, p, u⟩ :: ⟨d, b, v⟩ :: fs) t) k := by
  obtain ⟨hnds, hps, hapart⟩ := sibling_apart hnd
  obtain ⟨hbal, hpath⟩ := h.balancedPath
  obtain ⟨hproper, hp₁, hpfs⟩ := h.properPath
  dsimp only at hnds hps hapart hbal hpath hproper hp₁
  obtain ⟨-, hndv, hbu, hbv, huv⟩ := nodup_join.mp hnds
  have hbs : b ∈ inorder (join d b u v) := mem_join_self
  have hvs (x : ι) (hx : x ∈ inorder v) : x ∈ inorder (join d b u v) :=
    mem_inorder_join.mpr (Or.inr (Or.inr hx))
  rw [mem_inorder_join, not_or, not_or] at hps
  have hne (x : ι) (hx : x ∈ inorder t ∨ x ∈ pathNodes fs) : red' x = red x := by
    have hx' := hapart x hx
    exact helse x (fun heq => hx'.2 (heq ▸ hbs)) hx'.1 fun hroot => hx'.2 (hvs x (rootOf_mem hroot))
  have hneu : ∀ x ∈ inorder u, red' x = red x := fun x hx =>
    helse x (fun heq => hbu (heq ▸ hx)) (fun heq => hps.2.1 (heq ▸ hx)) fun hroot =>
      huv hx (rootOf_mem hroot)
  obtain ⟨m, hu, hvm, hm⟩ := balanced_join.mp hbal
  rw [weight_of_black hb] at hm
  obtain rfl : n = m := by omega
  obtain ⟨-, hpu, hpv⟩ := proper_join.mp hproper
  have hblacken := blacken hndv hpv hvm hv hv' fun x hx hroot =>
    helse x (fun heq => hbv (heq ▸ hx)) (fun heq => hps.2.2 (heq ▸ hx)) hroot
  have hw : weight red' b = weight red p := by rw [weight, weight, hb']
  constructor
  · refine proper_fill.mpr ⟨ht.congr fun x hx => hne x (Or.inl hx), ⟨hpu.congr hneu, ?_,
      hblacken.1, ?_, hpfs.congr fun x hx => hne x (Or.inr hx)⟩, ?_⟩
    · intro hred
      rw [hp'] at hred
      cases hred
    · intro hred
      have hredp : red p = true := hb'.symm.trans hred
      refine ⟨?_, ?_⟩
      · intro hroot
        obtain ⟨a, ha, hreda⟩ := hroot
        rw [hv' a ha] at hreda
        cases hreda
      · intro a ha
        rw [hne a (Or.inr (above_mem ha))]
        exact (hp₁ hredp).2 a ha
    · intro _ a ha
      cases ha
      exact hp'
  · refine balanced_fill.mpr ⟨n, h.balanced.congr fun x hx => hne x (Or.inl hx), hu.congr hneu, ?_, ?_⟩
    · dsimp only
      rw [weight_of_black hp']
      exact hblacken.2
    · dsimp only
      rw [weight_of_black hp', hw]
      exact hpath.congr fun x hx => hne x (Or.inr hx)

end Short

section Depth

theorem le_numNodes (h : Balanced red t n) : 2 ^ n ≤ t.numNodes + 1 := by
  induction t generalizing n with
  | nil => simp [show n = 0 from h]
  | node a l r ihl ihr =>
    obtain ⟨m, hl, hr, rfl⟩ := h
    have hpow : 2 ^ (m + weight red a) ≤ 2 ^ m + 2 ^ m := by
      have hw : weight red a ≤ 1 := by
        unfold weight
        split_ifs <;> omega
      calc 2 ^ (m + weight red a) ≤ 2 ^ (m + 1) := Nat.pow_le_pow_right (by norm_num) (by omega)
        _ = 2 ^ m + 2 ^ m := by rw [pow_succ]; omega
    have := ihl hl
    have := ihr hr
    simp only [BinaryTree.numNodes]
    omega

/-- At most every other node of a path is red. -/
theorem height_le (hp : Proper red t) (h : Balanced red t n) :
    t.height ≤ 2 * n + 1 ∧ (¬ RootRed red t → t.height ≤ 2 * n) := by
  induction t generalizing n with
  | nil => simp
  | node a l r ihl ihr =>
    obtain ⟨m, hl, hr, rfl⟩ := h
    obtain ⟨ha, hpl, hpr⟩ := hp
    obtain ⟨hl₁, hl₂⟩ := ihl hpl hl
    obtain ⟨hr₁, hr₂⟩ := ihr hpr hr
    rw [rootRed_node, BinaryTree.height]
    cases hred : red a with
    | true =>
      obtain ⟨hnl, hnr⟩ := ha hred
      have := hl₂ hnl
      have := hr₂ hnr
      rw [weight_of_red hred]
      refine ⟨by omega, fun h => absurd rfl h⟩
    | false =>
      rw [weight_of_black hred]
      refine ⟨by omega, fun _ => by omega⟩

/-- A red-black tree of `n` nodes has a depth of at most `2 log (n + 1)`. -/
theorem RedBlack.height_le (h : RedBlack red t) : t.height ≤ 2 * Nat.log 2 (t.numNodes + 1) := by
  obtain ⟨n, hn⟩ := h.balanced
  have hlog : n ≤ Nat.log 2 (t.numNodes + 1) :=
    Nat.le_log_of_pow_le (by norm_num) (le_numNodes hn)
  have := (LinkedTree.height_le h.proper hn).2 h.rootBlack
  omega

end Depth

end LinkedTree
