import Mathlib.Tactic

namespace Extents

/-- The addresses from `start` on, `size` of them. -/
structure Extent where
  start : ℕ
  size : ℕ
  deriving Repr, DecidableEq

namespace Extent

def Apart (a b : Extent) : Prop := a.start + a.size ≤ b.start ∨ b.start + b.size ≤ a.start

def Inside (a b : Extent) : Prop := b.start ≤ a.start ∧ a.start + a.size ≤ b.start + b.size

instance (a b : Extent) : Decidable (Apart a b) := by
  unfold Apart
  infer_instance

instance (a b : Extent) : Decidable (Inside a b) := by
  unfold Inside
  infer_instance

variable {a b c d : Extent}

theorem Apart.symm (h : Apart a b) : Apart b a := Or.symm h

theorem Inside.trans (hab : Inside a b) (hbc : Inside b c) : Inside a c :=
  ⟨hbc.1.trans hab.1, hab.2.trans hbc.2⟩

theorem Apart.inside (h : Apart a b) (hc : Inside c a) (hd : Inside d b) : Apart c d := by
  unfold Apart Inside at *
  omega

end Extent

open Extent

/-- An extent that begins with a header. -/
structure Region extends Extent where
  header : ℕ
  deriving Repr, DecidableEq

def Region.payload (r : Region) : Extent := ⟨r.start + r.header, r.size - r.header⟩

/-- The extents are apart from each other, and each one lies in the payload of a region. -/
structure Parted (regions : List Region) (extents : List Extent) : Prop where
  fits : ∀ r ∈ regions, r.header ≤ r.size
  apart : extents.Pairwise Apart
  inside : ∀ e ∈ extents, ∃ r ∈ regions, e.Inside r.payload

variable {regions : List Region} {extents extents' : List Extent} {r : Region} {e : Extent} {k : ℕ}

theorem Region.payload_inside (h : r.header ≤ r.size) : r.payload.Inside r.toExtent := by
  unfold Inside Region.payload
  dsimp only
  omega

theorem Parted.perm (h : Parted regions extents) (hp : extents.Perm extents') :
    Parted regions extents' :=
  ⟨h.fits, (hp.pairwise_iff Apart.symm).mp h.apart, fun e he => h.inside e (hp.mem_iff.mpr he)⟩

theorem Parted.reregion {regions' : List Region} (h : Parted regions extents)
    (hp : regions.Perm regions') : Parted regions' extents := by
  refine ⟨fun r hr => h.fits r (hp.mem_iff.mpr hr), h.apart, ?_⟩
  intro e he
  obtain ⟨r, hr, hin⟩ := h.inside e he
  exact ⟨r, hp.mem_iff.mp hr, hin⟩

theorem Parted.sublist (h : Parted regions extents) (hs : extents'.Sublist extents) :
    Parted regions extents' :=
  ⟨h.fits, h.apart.sublist hs, fun e he => h.inside e (hs.subset he)⟩

theorem Parted.shrink (h : Parted regions (e :: extents)) {e' : Extent} (hin : e'.Inside e) :
    Parted regions (e' :: extents) := by
  obtain ⟨hout, hrest⟩ := List.pairwise_cons.mp h.apart
  refine ⟨h.fits, List.pairwise_cons.mpr ⟨?_, hrest⟩, ?_⟩
  · intro f hf
    exact (hout f hf).inside hin ⟨le_rfl, le_rfl⟩
  · intro f hf
    rcases List.mem_cons.mp hf with rfl | hf
    · obtain ⟨r, hr, hinr⟩ := h.inside e List.mem_cons_self
      exact ⟨r, hr, hin.trans hinr⟩
    · exact h.inside f (List.mem_cons_of_mem _ hf)

/-- An extent is cut in two. -/
theorem Parted.carve (h : Parted regions (e :: extents)) (hk : k ≤ e.size) :
    Parted regions (⟨e.start + k, e.size - k⟩ :: ⟨e.start, k⟩ :: extents) := by
  have hback : Inside ⟨e.start + k, e.size - k⟩ e := by
    unfold Inside
    dsimp only
    omega
  have hfront : Inside ⟨e.start, k⟩ e := by
    unfold Inside
    dsimp only
    omega
  have hb := h.shrink hback
  have hf := h.shrink hfront
  refine ⟨h.fits, List.pairwise_cons.mpr ⟨?_, hf.apart⟩, ?_⟩
  · intro f hmem
    rcases List.mem_cons.mp hmem with rfl | hmem
    · exact Or.inr le_rfl
    · exact (List.pairwise_cons.mp hb.apart).1 f hmem
  · intro f hmem
    rcases List.mem_cons.mp hmem with rfl | hmem
    · exact hb.inside _ List.mem_cons_self
    · exact hf.inside f hmem

/-- A region that is apart from all others brings its payload. -/
theorem Parted.obtained (h : Parted regions extents) (hr : r.header ≤ r.size)
    (hfresh : ∀ q ∈ regions, Apart r.toExtent q.toExtent) :
    Parted (r :: regions) (r.payload :: extents) := by
  refine ⟨List.forall_mem_cons.mpr ⟨hr, h.fits⟩, ?_, ?_⟩
  · refine List.pairwise_cons.mpr ⟨?_, h.apart⟩
    intro f hf
    obtain ⟨q, hq, hin⟩ := h.inside f hf
    exact (hfresh q hq).inside (Region.payload_inside hr)
      (hin.trans (Region.payload_inside (h.fits q hq)))
  · intro f hf
    rcases List.mem_cons.mp hf with rfl | hf
    · exact ⟨r, List.mem_cons_self, le_rfl, le_rfl⟩
    · obtain ⟨q, hq, hin⟩ := h.inside f hf
      exact ⟨q, List.mem_cons_of_mem _ hq, hin⟩

section Room

/-- The addresses that the extents cover. -/
def covered (extents : List Extent) : Finset ℕ :=
  extents.foldr (fun e s => Finset.Ico e.start (e.start + e.size) ∪ s) ∅

theorem mem_covered {x : ℕ} :
    x ∈ covered extents ↔ ∃ e ∈ extents, e.start ≤ x ∧ x < e.start + e.size := by
  induction extents with
  | nil => simp [covered]
  | cons e es ih =>
    change x ∈ Finset.Ico e.start (e.start + e.size) ∪ covered es ↔ _
    simp only [Finset.mem_union, Finset.mem_Ico, ih, List.exists_mem_cons_iff]

/-- No address is covered twice. -/
theorem card_covered (h : extents.Pairwise Apart) :
    (covered extents).card = (extents.map (·.size)).sum := by
  induction extents with
  | nil => rfl
  | cons e es ih =>
    obtain ⟨hout, hrest⟩ := List.pairwise_cons.mp h
    have hdisjoint : Disjoint (Finset.Ico e.start (e.start + e.size)) (covered es) := by
      apply Finset.disjoint_left.mpr
      intro x hx hcov
      obtain ⟨f, hf, hle, hlt⟩ := mem_covered.mp hcov
      have hapart := hout f hf
      rw [Finset.mem_Ico] at hx
      unfold Apart at hapart
      omega
    change (Finset.Ico e.start (e.start + e.size) ∪ covered es).card = _
    rw [Finset.card_union_of_disjoint hdisjoint, Nat.card_Ico, ih hrest, List.map_cons,
      List.sum_cons, Nat.add_sub_cancel_left]

/-- What is apart has room together. -/
theorem sum_sizes_le {lo hi : ℕ} (h : extents.Pairwise Apart)
    (hin : ∀ e ∈ extents, lo ≤ e.start ∧ e.start + e.size ≤ hi) :
    (extents.map (·.size)).sum ≤ hi - lo := by
  rw [← card_covered h, ← Nat.card_Ico]
  apply Finset.card_le_card
  intro x hx
  obtain ⟨e, he, hle, hlt⟩ := mem_covered.mp hx
  have hbounds := hin e he
  rw [Finset.mem_Ico]
  omega

end Room

end Extents
