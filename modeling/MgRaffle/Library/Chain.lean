import Mathlib.Tactic

namespace LinkedChain

/-- What is found where a pointer is kept: null, the address of a cell, or whatever bytes were there. -/
inductive Pointer (ι : Type*)
  | null
  | node (a : ι)
  | wild
  deriving DecidableEq, Repr

variable {ι : Type*}

def Pointer.ofOption : Option ι → Pointer ι
  | none => .null
  | some a => .node a

/-- From `p` the links lead through the cells of the list, and then to `q`. -/
def Segment (next : ι → Pointer ι) : Pointer ι → List ι → Pointer ι → Prop
  | p, [], q => p = q
  | p, a :: as, q => p = .node a ∧ Segment next (next a) as q

variable {next next' : ι → Pointer ι} {p q r : Pointer ι} {a : ι} {xs ys : List ι}

theorem Segment.congr (h : Segment next p xs q) (hnext : ∀ a ∈ xs, next' a = next a) :
    Segment next' p xs q := by
  induction xs generalizing p with
  | nil => exact h
  | cons a as ih =>
    refine ⟨h.1, ?_⟩
    rw [hnext a (List.mem_cons_self ..)]
    exact ih h.2 fun b hb => hnext b (List.mem_cons_of_mem _ hb)

theorem segment_append :
    Segment next p (xs ++ ys) q ↔ ∃ r, Segment next p xs r ∧ Segment next r ys q := by
  induction xs generalizing p with
  | nil =>
    constructor
    · intro h
      exact ⟨p, rfl, h⟩
    · intro h
      obtain ⟨r, hr, h⟩ := h
      rw [hr]
      exact h
  | cons a as ih =>
    rw [List.cons_append]
    constructor
    · intro h
      obtain ⟨r, hr, hys⟩ := ih.mp h.2
      exact ⟨r, ⟨h.1, hr⟩, hys⟩
    · intro h
      obtain ⟨r, hr, hys⟩ := h
      exact ⟨hr.1, ih.mpr ⟨r, hr.2, hys⟩⟩

theorem Segment.eq_nil (h : Segment next .null xs q) : xs = [] := by
  cases xs with
  | nil => rfl
  | cons a as => cases h.1

/-- A cell that the links lead to is in every chain from the same place. -/
theorem Segment.mem (h : Segment next p xs (.node a)) (hys : Segment next p ys .null) : a ∈ ys := by
  induction xs generalizing p ys with
  | nil =>
    have hp : p = .node a := h
    cases ys with
    | nil =>
      have hnull : p = .null := hys
      rw [hnull] at hp
      cases hp
    | cons b bs =>
      have hb := hys.1
      rw [hp] at hb
      cases hb
      exact List.mem_cons_self ..
  | cons x as ih =>
    cases ys with
    | nil =>
      have hnull : p = .null := hys
      have hx := h.1
      rw [hnull] at hx
      cases hx
    | cons b bs =>
      have hb := hys.1
      rw [h.1] at hb
      cases hb
      exact List.mem_cons_of_mem _ (ih h.2 hys.2)

/-- A cell is put before the first one. -/
theorem Segment.push [DecidableEq ι] (h : Segment next p xs q) (ha : a ∉ xs) :
    Segment (Function.update next a p) (.node a) (a :: xs) q := by
  refine ⟨rfl, ?_⟩
  rw [Function.update_self]
  apply h.congr
  intro b hb
  have hne : b ≠ a := fun heq => ha (heq ▸ hb)
  exact Function.update_of_ne hne _ _

end LinkedChain
