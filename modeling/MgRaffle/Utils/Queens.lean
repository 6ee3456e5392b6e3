import Mathlib.Data.List.GetD
import MgRaffle.Library.Backtracking

namespace MgRaffle.Utils
open Backtracking

/-- `class Queens`. `printed` are the lines that `print_queen` has written; the overflow of `total`
is left out. -/
structure Queens where
  vec : List ℤ
  size : vec.length = 9
  total : ℤ
  printed : List (List (ℕ × ℤ))
  deriving Repr, DecidableEq

namespace Queens

def new : Queens := ⟨List.replicate 9 0, rfl, 0, []⟩

/-- The line for a board: it begins with `vec[1]`. -/
def line (vec : List ℤ) : List (ℕ × ℤ) := (List.range' 1 8).map fun i => (i, vec.getD i 0)

def printQueen (q : Queens) : Queens := { q with printed := q.printed ++ [line q.vec] }

def check (q : Queens) (row : ℕ) (col : ℤ) : Bool :=
  (List.range row).all fun i =>
    !(col == q.vec.getD i 0) && !(|(row : ℤ) - i| == |q.vec.getD row 0 - q.vec.getD i 0|)

def place (q : Queens) (row : ℕ) (col : ℤ) : Queens :=
  { q with vec := q.vec.set row col, size := by rw [List.length_set, q.size] }

/-- The columns that the loop tries. -/
def columns : List ℤ := [1, 2, 3, 4, 5, 6, 7, 8]

/-- `find_queue(row)`, where `left` rows are left: `row = 8 - left`. -/
def findQueueLeft : ℕ → Queens → Queens
  | 0, q => ({ q with total := q.total + 1 } : Queens).printQueen
  | left + 1, q => columns.foldl (fun q col =>
      let q := q.place (7 - left) col
      if q.check (7 - left) col then findQueueLeft left q else q) q

/-- `find_queue` is called with a row of the board, or with the row behind the last one. -/
def findQueue (q : Queens) (row : ℕ) : Queens := findQueueLeft (8 - row) q

/-- No queen of the path attacks one that is placed in the next row. -/
def safe (path : List ℤ) (col : ℤ) : Bool :=
  (List.range path.length).all fun i =>
    !(col == path.getD i 0) && !(|(path.length : ℤ) - i| == |col - path.getD i 0|)

section Search

variable {q : Queens} {row left : ℕ} {col : ℤ}

/-- What `find_queue` does with a complete board. -/
def record (last : ℤ) (board : List ℤ) (b : ℤ × List (List (ℕ × ℤ))) : ℤ × List (List (ℕ × ℤ)) :=
  (b.1 + 1, b.2 ++ [line (board ++ [last])])

theorem length_take_vec (hrow : row ≤ 8) : (q.vec.take row).length = row := by
  rw [List.length_take, q.size]
  omega

theorem check_place (hrow : row < 8) :
    (q.place row col).check row col = safe (q.vec.take row) col := by
  have hlen : (q.vec.take row).length = row := length_take_vec hrow.le
  have hsize := q.size
  rw [check, safe, hlen]
  rw [Bool.eq_iff_iff, List.all_eq_true, List.all_eq_true]
  apply forall₂_congr
  intro i hi
  have hi := List.mem_range.mp hi
  have hself : (q.place row col).vec.getD row 0 = col := by
    rw [place, List.getD_eq_getElem _ _ (by rw [List.length_set]; omega), List.getElem_set_self]
  have hother : (q.place row col).vec.getD i 0 = (q.vec.take row).getD i 0 := by
    rw [place, List.getD_eq_getElem?_getD, List.getD_eq_getElem?_getD, List.getElem?_set_ne (by omega),
      List.getElem?_take_of_lt hi]
  rw [hself, hother]

/-- What `find_queue(row)` leaves as it was. -/
structure Keeps (row : ℕ) (q q' : Queens) : Prop where
  path : q'.vec.take row = q.vec.take row
  last : q'.vec.getD 8 0 = q.vec.getD 8 0

theorem Keeps.trans {q' q'' : Queens} (h : Keeps row q q') (h' : Keeps row q' q'') :
    Keeps row q q'' :=
  ⟨h'.path.trans h.path, h'.last.trans h.last⟩

theorem keeps_place (hrow : row < 8) : Keeps row q (q.place row col) where
  path := List.take_set_of_le le_rfl
  last := by
    rw [place, List.getD_eq_getElem?_getD, List.getElem?_set_ne (by omega),
      ← List.getD_eq_getElem?_getD]

theorem Keeps.of_succ {q' : Queens} (h : Keeps (row + 1) q q') : Keeps row q q' where
  path := by
    have htake := congrArg (List.take row) h.path
    rwa [List.take_take, List.take_take, Nat.min_eq_left (Nat.le_succ row)] at htake
  last := h.last

theorem take_place (hrow : row < 8) :
    (q.place row col).vec.take (row + 1) = q.vec.take row ++ [col] := by
  have hrow : row < q.vec.length := by rw [q.size]; omega
  rw [place, List.take_add_one, List.take_set_of_le le_rfl, List.getElem?_set_self hrow]
  rfl

/-- `find_queue` on the board is the search on the path that the board begins with. -/
theorem findQueueLeft_eq (hrow : row + left = 8) :
    ((findQueueLeft left q).total, (findQueueLeft left q).printed) =
      explore columns safe (record (q.vec.getD 8 0)) left (q.vec.take row) (q.total, q.printed) ∧
    Keeps row q (findQueueLeft left q) := by
  -- on the rows that are left, from any board: what is behind the path does not matter
  induction left generalizing row q with
  | zero =>
    obtain rfl : row = 8 := hrow
    have hvec : q.vec.take 8 ++ [q.vec.getD 8 0] = q.vec := by
      have hnine : 8 < q.vec.length := by rw [q.size]; omega
      rw [List.getD_eq_getElem _ _ hnine, List.take_append_getElem hnine]
      exact List.take_of_length_le q.size.le
    refine ⟨?_, rfl, rfl⟩
    rw [explore, record, hvec]
    rfl
  | succ left ih =>
    have hseven : 7 - left = row := by omega
    rw [findQueueLeft, explore, hseven]
    -- the loop over the columns, from any board that begins with the path
    have hloop (cols : List ℤ) (p : Queens) (hp : Keeps row q p) :
        let p' := cols.foldl (fun q col =>
          let q := q.place row col
          if q.check row col then findQueueLeft left q else q) p
        (p'.total, p'.printed) = cols.foldl (fun b col => if safe (q.vec.take row) col then
          explore columns safe (record (q.vec.getD 8 0)) left (q.vec.take row ++ [col]) b else b)
          (p.total, p.printed) ∧ Keeps row q p' := by
      induction cols generalizing p with
      | nil => exact ⟨rfl, hp⟩
      | cons col cols ihc =>
        have hplace : Keeps row q (p.place row col) := hp.trans (keeps_place (by omega))
        have hcheck : (p.place row col).check row col = safe (q.vec.take row) col := by
          rw [check_place (by omega), hp.path]
        simp only [List.foldl_cons, hcheck]
        cases hsafe : safe (q.vec.take row) col with
        | false => exact ihc _ hplace
        | true =>
          obtain ⟨hexplore, hkeeps⟩ := @ih (p.place row col) (row + 1) (by omega)
          rw [take_place (by omega), hp.path, hplace.last] at hexplore
          have hnext := ihc _ (hplace.trans hkeeps.of_succ)
          rwa [hexplore] at hnext
    exact hloop columns q ⟨rfl, rfl⟩

end Search

/-- The board goes on from the path, and from there on no queen attacks one in front of it. -/
structure Solves (path board : List ℤ) : Prop where
  length : board.length = 8
  begins : path <+: board
  columns : ∀ col ∈ board.drop path.length, 1 ≤ col ∧ col ≤ 8
  apart : ∀ i j, i < j → path.length ≤ j → j < 8 → board.getD j 0 ≠ board.getD i 0 ∧
    (j : ℤ) - i ≠ |board.getD j 0 - board.getD i 0|

section Solutions

variable {path s : List ℤ} {col : ℤ} {left : ℕ}

theorem mem_columns : col ∈ columns ↔ 1 ≤ col ∧ col ≤ 8 := by
  simp only [columns, List.mem_cons, List.not_mem_nil, or_false]
  omega

theorem safe_iff : safe path col = true ↔ ∀ i < path.length,
    col ≠ path.getD i 0 ∧ (path.length : ℤ) - i ≠ |col - path.getD i 0| := by
  rw [safe, List.all_eq_true]
  apply forall_congr'
  intro i
  rw [List.mem_range]
  apply imp_congr_right
  intro hi
  have habs : |(path.length : ℤ) - i| = path.length - i := abs_of_nonneg (by omega)
  simp [habs]

/-- The queen in row `j` is safe from those in front of it. -/
theorem safe_take {j : ℕ} (hj : j < s.length) : safe (s.take j) s[j] = true ↔ ∀ i < j,
    s.getD j 0 ≠ s.getD i 0 ∧ (j : ℤ) - i ≠ |s.getD j 0 - s.getD i 0| := by
  have hlen : (s.take j).length = j := by rw [List.length_take]; omega
  rw [safe_iff, hlen]
  apply forall₂_congr
  intro i hi
  have hget : (s.take j).getD i 0 = s.getD i 0 := by
    rw [List.getD_eq_getElem?_getD, List.getElem?_take_of_lt hi, ← List.getD_eq_getElem?_getD]
  rw [hget, List.getD_eq_getElem _ _ hj]

theorem mem_search_iff (hleft : path.length + left = 8) :
    s ∈ search columns safe left path ↔ Solves path s := by
  rw [mem_search]
  constructor
  · rintro ⟨s', rfl, hlen, hmem, hadm⟩
    rw [admissible_iff] at hadm
    refine ⟨by rw [List.length_append]; omega, List.prefix_append _ _, ?_, ?_⟩
    · rw [List.drop_left]
      exact fun col hcol => mem_columns.mp (hmem col hcol)
    · intro i j hij hj hj8
      have hlt : j < (path ++ s').length := by rw [List.length_append]; omega
      apply (safe_take hlt).mp _ i hij
      have hsafe := hadm (j - path.length) (by omega)
      rw [List.take_append, List.take_of_length_le hj, List.getElem_append_right hj]
      exact hsafe
  · intro h
    obtain ⟨s', rfl⟩ := h.begins
    have hlen := h.length
    have hcols := h.columns
    rw [List.length_append] at hlen
    rw [List.drop_left] at hcols
    refine ⟨s', rfl, by omega, fun col hcol => mem_columns.mpr (hcols col hcol), ?_⟩
    rw [admissible_iff]
    intro k hk
    have hlt : path.length + k < (path ++ s').length := by rw [List.length_append]; omega
    have hsafe := (safe_take hlt).mpr fun i hi => h.apart i _ hi (Nat.le_add_right _ _) (by omega)
    rw [List.take_length_add_append, List.getElem_append_right (Nat.le_add_right _ _)] at hsafe
    simpa only [Nat.add_sub_cancel_left] using hsafe

theorem foldl_record (last : ℤ) (boards : List (List ℤ)) (b : ℤ × List (List (ℕ × ℤ))) :
    boards.foldl (fun b s => record last s b) b =
      (b.1 + boards.length, b.2 ++ boards.map fun board => line (board ++ [last])) := by
  induction boards generalizing b with
  | nil => simp
  | cons board boards ih =>
    rw [List.foldl_cons, ih, record]
    simp only [List.length_cons, List.map_cons, List.append_assoc, List.singleton_append]
    congr 1
    rw [Nat.cast_add, Nat.cast_one, add_assoc, add_comm 1]

/-- `find_queue` counts every solution that the board can be completed to, and prints it, in
lexicographic order and once; the line begins with the second row and ends with `vec[8]`, which is
never set. The rows in front are as before. -/
theorem findQueue_solutions (q : Queens) (row : ℕ) (hrow : row ≤ 8) :
    ∃ boards : List (List ℤ), boards.Pairwise (List.Lex (· < ·)) ∧
      (∀ board, board ∈ boards ↔ Solves (q.vec.take row) board) ∧
      (q.findQueue row).total = q.total + boards.length ∧
      (q.findQueue row).printed =
        q.printed ++ boards.map (fun board => line (board ++ [q.vec.getD 8 0])) ∧
      Keeps row q (q.findQueue row) := by
  obtain ⟨heq, hkeeps⟩ := @findQueueLeft_eq q row (8 - row) (by omega)
  rw [explore_eq_foldl, foldl_record, Prod.mk.injEq] at heq
  refine ⟨search columns safe (8 - row) (q.vec.take row), sorted_search (by decide), ?_, heq.1, heq.2,
    hkeeps⟩
  intro board
  apply mem_search_iff
  rw [length_take_vec hrow]
  omega

/-- Six queens are placed; the last two rows can be filled in one way. -/
def sixPlaced : Queens := ⟨[1, 5, 8, 6, 3, 7, 0, 0, 0], rfl, 0, []⟩

theorem findQueue_solutions_six : ∃ boards : List (List ℤ),
    boards.Pairwise (List.Lex (· < ·)) ∧ boards.length = 1 ∧
    (sixPlaced.findQueue 6).printed =
      [[(1, 5), (2, 8), (3, 6), (4, 3), (5, 7), (6, 2), (7, 4), (8, 0)]] := by
  obtain ⟨boards, hsorted, -, htotal, -, -⟩ := findQueue_solutions sixPlaced 6 (by decide)
  have hone : (sixPlaced.findQueue 6).total = 1 := by decide +kernel
  refine ⟨boards, hsorted, ?_, by decide +kernel⟩
  rw [hone] at htotal
  simpa [sixPlaced] using htotal.symm

end Solutions

end Queens

end MgRaffle.Utils
