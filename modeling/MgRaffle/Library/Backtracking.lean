import Mathlib.Tactic
import Mathlib.Data.List.Lex

namespace Backtracking

variable {α β : Type*}

/-- All sequences of `n` choices, the first one changing slowest. -/
def sequences (choices : List α) : ℕ → List (List α)
  | 0 => [[]]
  | n + 1 => choices.flatMap fun a => (sequences choices n).map (a :: ·)

/-- The continuations of a path by `n` choices, where a choice that the path rules out is not
continued. -/
def search (choices : List α) (ok : List α → α → Bool) : ℕ → List α → List (List α)
  | 0, path => [path]
  | n + 1, path =>
    choices.flatMap fun a => if ok path a then search choices ok n (path ++ [a]) else []

/-- The same as a loop that does something with every continuation that it comes to. -/
def explore (choices : List α) (ok : List α → α → Bool) (leaf : List α → β → β) :
    ℕ → List α → β → β
  | 0, path, b => leaf path b
  | n + 1, path, b => choices.foldl
      (fun b a => if ok path a then explore choices ok leaf n (path ++ [a]) b else b) b

/-- No element of the sequence is ruled out by those in front of it. -/
def admissible (ok : List α → α → Bool) : List α → List α → Bool
  | _, [] => true
  | path, a :: s => ok path a && admissible ok (path ++ [a]) s

section Search

variable {choices : List α} {ok : List α → α → Bool} {leaf : List α → β → β} {n : ℕ}
  {path s : List α}

theorem mem_sequences : s ∈ sequences choices n ↔ s.length = n ∧ ∀ a ∈ s, a ∈ choices := by
  induction n generalizing s with
  | zero =>
    rw [sequences, List.mem_singleton, List.length_eq_zero_iff]
    constructor
    · rintro rfl
      exact ⟨rfl, fun _ h => by cases h⟩
    · exact And.left
  | succ n ih =>
    simp only [sequences, List.mem_flatMap, List.mem_map]
    constructor
    · rintro ⟨a, ha, s', hs', rfl⟩
      obtain ⟨hlen, hmem⟩ := ih.mp hs'
      exact ⟨by rw [List.length_cons, hlen], List.forall_mem_cons.mpr ⟨ha, hmem⟩⟩
    · rintro ⟨hlen, hmem⟩
      obtain ⟨a, s', rfl⟩ := List.exists_cons_of_length_eq_add_one hlen
      rw [List.length_cons, Nat.add_right_cancel_iff] at hlen
      obtain ⟨ha, hmem⟩ := List.forall_mem_cons.mp hmem
      exact ⟨a, ha, s', ih.mpr ⟨hlen, hmem⟩, rfl⟩

/-- They come in lexicographic order, and each one once. -/
theorem sorted_sequences [LT α] (h : choices.Pairwise (· < ·)) :
    (sequences choices n).Pairwise (List.Lex (· < ·)) := by
  induction n with
  | zero => exact List.pairwise_singleton _ _
  | succ n ih =>
    rw [sequences, List.pairwise_flatMap]
    constructor
    · intro a _
      rw [List.pairwise_map]
      exact ih.imp List.Lex.cons
    · apply h.imp
      intro a b hab s hs t ht
      obtain ⟨s', -, rfl⟩ := List.mem_map.mp hs
      obtain ⟨t', -, rfl⟩ := List.mem_map.mp ht
      exact List.Lex.rel hab

/-- Cutting off what is ruled out loses nothing. -/
theorem search_eq_filter : search choices ok n path =
    ((sequences choices n).filter (admissible ok path)).map (path ++ ·) := by
  induction n generalizing path with
  | zero =>
    have hnil : admissible ok path [] = true := by rw [admissible]
    simp [search, sequences, hnil]
  | succ n ih =>
    rw [search, sequences, List.filter_flatMap, List.map_flatMap]
    apply List.flatMap_congr
    intro a _
    rw [List.filter_map, List.map_map]
    have hcons : admissible ok path ∘ (a :: ·) = fun s => ok path a && admissible ok (path ++ [a]) s :=
      rfl
    rw [hcons]
    -- a choice that is ruled out rules out every sequence that begins with it
    cases hok : ok path a with
    | false => simp
    | true =>
      simp only [if_true, ih, Bool.true_and]
      apply List.map_congr_left
      intro s _
      simp

theorem mem_search : s ∈ search choices ok n path ↔ ∃ s', s = path ++ s' ∧ s'.length = n ∧
    (∀ a ∈ s', a ∈ choices) ∧ admissible ok path s' = true := by
  rw [search_eq_filter, List.mem_map]
  constructor
  · rintro ⟨s', hs', rfl⟩
    obtain ⟨hmem, hadm⟩ := List.mem_filter.mp hs'
    obtain ⟨hlen, hall⟩ := mem_sequences.mp hmem
    exact ⟨s', rfl, hlen, hall, hadm⟩
  · rintro ⟨s', rfl, hlen, hall, hadm⟩
    exact ⟨s', List.mem_filter.mpr ⟨mem_sequences.mpr ⟨hlen, hall⟩, hadm⟩, rfl⟩

theorem sorted_search [LT α] (h : choices.Pairwise (· < ·)) :
    (search choices ok n path).Pairwise (List.Lex (· < ·)) := by
  rw [search_eq_filter, List.pairwise_map]
  apply ((sorted_sequences h).filter _).imp
  intro s t hst
  exact List.Lex.append_left _ hst path

/-- The loop comes to the continuations one after the other. -/
theorem explore_eq_foldl (b : β) : explore choices ok leaf n path b =
    (search choices ok n path).foldl (fun b s => leaf s b) b := by
  induction n generalizing path b with
  | zero => rfl
  | succ n ih =>
    rw [explore, search, List.foldl_flatMap]
    congr 1
    funext b a
    cases ok path a with
    | false => rfl
    | true => exact ih b

/-- Each element is allowed by everything in front of it. -/
theorem admissible_iff : admissible ok path s = true ↔
    ∀ k, ∀ h : k < s.length, ok (path ++ s.take k) s[k] = true := by
  induction s generalizing path with
  | nil => simp [admissible]
  | cons b s ih =>
    rw [admissible, Bool.and_eq_true, ih]
    constructor
    · rintro ⟨hb, hs⟩ k hk
      cases k with
      | zero => rwa [List.take_zero, List.append_nil]
      | succ k =>
        have hrest := hs k (Nat.lt_of_succ_lt_succ hk)
        rwa [List.append_assoc] at hrest
    · intro h
      constructor
      · have hfirst := h 0 (Nat.succ_pos _)
        rwa [List.take_zero, List.append_nil] at hfirst
      · intro k hk
        have hrest := h (k + 1) (Nat.succ_lt_succ hk)
        rwa [List.append_assoc]

end Search

end Backtracking
