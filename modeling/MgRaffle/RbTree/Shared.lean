import MgRaffle.Library.SpinLock
import MgRaffle.RbTree.Ordered

open LinkedTree Looping SpinLock Stepping

namespace MgRaffle.RbTree

/-- Where a call of `insert` stands, between the turns of its loops. -/
inductive InsertPos (α : Type*)
  /-- `create_node(val)` -/
  | create (v : α)
  /-- `if (_tree == nullptr)` -/
  | test (locate : ℕ) (v : α)
  /-- `while (root != nullptr)`, with `root` and `p` -/
  | find (locate : ℕ) (v : α) (place : Option ℕ × Option ℕ)
  /-- `locate->_parent = p` and so on, up to `_count++` -/
  | link (locate p : ℕ)
  /-- the loop that rebalances -/
  | rebalance (locate : ℕ)
  /-- `_tree->_type = RBBlackNode` -/
  | blacken

variable {α : Type*} [LinearOrder α]

namespace RBTree

def insertTurn (pos : InsertPos α) (S : RBTree α) : Option ((InsertPos α ⊕ ℤ) × RBTree α) :=
  match pos with
  | .create v => some (.inl (.test S.next v), S.createNode v)
  | .test locate v =>
    match S.root with
    | none =>
      some (.inr 1,
        S.withNodes ((S.withLinks (S.setRoot (some locate))).setType locate .black))
    | some root => some (.inl (.find locate v (some root, none)), S)
  | .find locate v place => (findTurn v S place).bind fun
    | .inl place => some (.inl (.find locate v place), S)
    | .inr .exist => some (.inr (-1), S)
    | .inr (.below p) => p.map fun p => (.inl (.link locate p), S)
  | .link locate p => some (.inl (.rebalance locate), S.link locate p)
  | .rebalance locate => (rebalanceTurn true (locate, S.toNodes)).map fun
    | .inl (locate, N) => (.inl (.rebalance locate), S.withNodes N)
    | .inr N => (.inl .blacken, S.withNodes N)
  -- behind this statement the function ends without a `return`
  | .blacken => none

/-- `insert` behind its `SpinLock`. The node is made before the lock is taken, but no other thread
knows it before it is linked, so that the body begins with it. -/
def insertBody : Body α (InsertPos α) ℤ (RBTree α) where
  start := .create
  turn := insertTurn

variable {S S' : RBTree α} {v : α} {fuel locate : ℕ} {r : Option ℤ} {N : Nodes ℕ}

/-- The loop that rebalances, as turns of the call. -/
theorem rebalance_going (h : loop (rebalanceTurn true) fuel (locate, S.toNodes) = some N) :
    insertBody.Going (.rebalance locate, S) (.blacken, S.withNodes N) := by
  obtain ⟨⟨a, M⟩, hpath, hlast⟩ := loop_path h
  have hgoing : insertBody.Going (.rebalance locate, S) (.rebalance a, S.withNodes M) := by
    refine hpath.lift (fun x : ℕ × Nodes ℕ => (InsertPos.rebalance x.1, S.withNodes x.2)) ?_
    intro x y hturn
    have hturn : rebalanceTurn true (x.1, x.2) = some (.inl y) := hturn
    simp only [Function.onFun, insertBody, insertTurn, withNodes, hturn, Option.map_some]
  apply hgoing.tail
  simp only [insertBody, insertTurn, withNodes, hlast, Option.map_some]

/-- The turns of a call come to where `insert` returns, or to its end. -/
theorem insertNode_going (h : S.insertNode fuel v = some (r, S')) :
    ∃ pos u, insertBody.Going (.create v, S) (pos, u) ∧
      insertTurn pos u = r.map fun k => (.inr k, S') := by
  have hcreate : insertBody.Going (.create v, S) (.test S.next v, S.createNode v) := .single rfl
  unfold insertNode at h
  dsimp only at h
  cases hroot : (S.createNode v).root with
  | none =>
    rw [hroot] at h
    cases h
    refine ⟨_, _, hcreate, ?_⟩
    simp only [insertTurn, hroot, Option.map_some]
  | some root =>
    rw [hroot] at h
    obtain ⟨place, hfind, h⟩ := Option.bind_eq_some_iff.mp h
    have htest : insertBody.Going (.create v, S) (.find S.next v (some root, none), S.createNode v) := by
      apply hcreate.tail
      simp only [insertBody, insertTurn, hroot]
    -- the loop that looks for the place, as turns of the call
    obtain ⟨q, hpath, hlast⟩ := loop_path hfind
    have hfound : insertBody.Going (.create v, S) (.find S.next v q, S.createNode v) := by
      apply htest.trans
      refine hpath.lift (fun q => (InsertPos.find S.next v q, S.createNode v)) ?_
      intro q q' hturn
      simp only [Function.onFun, insertBody, insertTurn, hturn, Option.bind_some]
    cases place with
    | exist =>
      cases h
      refine ⟨_, _, hfound, ?_⟩
      simp only [insertTurn, hlast, Option.bind_some, Option.map_some]
    | below p =>
      cases p with
      | none => cases h
      | some p =>
        change (loop (rebalanceTurn true) _ _).bind _ = _ at h
        obtain ⟨N, hloop, h⟩ := Option.bind_eq_some_iff.mp h
        obtain ⟨root, hN, heq⟩ := Option.map_eq_some_iff.mp h
        cases heq
        have hplace : insertBody.Going (.create v, S) (.link S.next p, S.createNode v) := by
          apply hfound.tail
          simp only [insertBody, insertTurn, hlast, Option.bind_some, Option.map_some]
        exact ⟨_, _, (hplace.tail rfl).trans (rebalance_going hloop), rfl⟩

end RBTree

section Answers

variable {S S' : RBTree α} {vs : List α} {v : α} {t : BinaryTree ℕ} {res : ℤ}

/-- A call returns by turns of its own with the first value and with one that is there, and with no
other. -/
theorem Holding.returns_iff (h : Holding S vs t) (v : α) :
    (∃ n r, loop RBTree.insertBody.whole n (.create v, S) = some r) ↔ vs = [] ∨ v ∈ vs := by
  obtain ⟨S', t', hins, -⟩ := holding_insertNode h v (Nat.lt_succ_self _)
  obtain ⟨pos, u, hgoing, hlast⟩ := RBTree.insertNode_going hins
  cases hk : answer vs v with
  | none =>
    rw [hk] at hlast
    refine iff_of_false ?_ (not_or.mpr (answer_eq_none.mp hk))
    rintro ⟨n, r, hn⟩
    -- the call would return from the end of `insert`
    obtain ⟨m, hm⟩ := hgoing.rest hn
    have hstuck : RBTree.insertBody.whole (pos, u) = none := by
      simp only [Body.whole, RBTree.insertBody, hlast, Option.map_none]
    rw [loop_none hstuck] at hm
    cases hm
  | some k =>
    rw [hk] at hlast
    refine iff_of_true ?_ ?_
    · obtain ⟨m, hm⟩ := hgoing.loops (loop_inr (n := 0) (Body.whole_inr hlast))
      exact ⟨m, _, hm⟩
    · by_contra hcon
      rw [answer_eq_none.mpr (not_or.mp hcon)] at hk
      cases hk

theorem Holding.runs (h : Holding S vs t) (hrun : RBTree.insertBody.Runs v S res S') :
    answer vs v = some res ∧ ∃ t', Holding S' (vs ++ [v]) t' := by
  obtain ⟨n, hn⟩ := hrun.loops
  obtain ⟨S₁, t', hins, ht'⟩ := holding_insertNode h v (Nat.lt_succ_self _)
  obtain ⟨pos, u, hgoing, hlast⟩ := RBTree.insertNode_going hins
  cases hk : answer vs v with
  | none => exact absurd ((h.returns_iff v).mp ⟨n, _, hn⟩) (not_or.mpr (answer_eq_none.mp hk))
  | some k =>
    rw [hk] at hlast
    obtain ⟨m, hm⟩ := hgoing.loops (loop_inr (n := 0) (Body.whole_inr hlast))
    cases loop_unique hn hm
    exact ⟨rfl, t', ht'⟩

end Answers

section Threads

variable {ι : Type*} {log : List (ι × α × ℤ)} {S : RBTree α}

/-- The values of the calls. -/
def values (log : List (ι × α × ℤ)) : List α := log.map fun e => e.2.1

/-- The first of the calls has returned 1 and the others -1, all of them with one value. -/
structure Answered (log : List (ι × α × ℤ)) : Prop where
  equal : AllEqual (values log)
  results : ∀ before i v res after, log = before ++ (i, v, res) :: after →
    res = if before = [] then 1 else -1

theorem Answered.concat {i : ι} {v : α} {res : ℤ} (h : Answered log)
    (hres : answer (values log) v = some res) : Answered (log ++ [(i, v, res)]) := by
  have hnil : values log = [] ↔ log = [] := List.map_eq_nil_iff
  have hvalue : values log = [] ∨ v ∈ values log := by
    by_contra hcon
    rw [answer_eq_none.mpr (not_or.mp hcon)] at hres
    cases hres
  unfold answer at hres
  constructor
  · rw [values, List.map_append]
    exact allEqual_concat.mpr ⟨h.equal, hvalue⟩
  · intro before j w res' after heq
    -- the call is the last one, or one of those before it
    rcases List.eq_nil_or_concat after with rfl | ⟨after, x, rfl⟩
    · obtain ⟨rfl, hlast⟩ := List.append_inj' heq rfl
      cases hlast
      split_ifs at hres with hempty <;> cases hres
      · rw [if_pos (hnil.mp hempty)]
      · rw [if_neg (mt hnil.mpr hempty)]
    · rw [List.concat_eq_append, ← List.cons_append, ← List.append_assoc] at heq
      exact h.results before j w res' after (List.append_inj' heq rfl).1

/-- Whole calls one after another leave an ordered set, and answer so. -/
theorem holding_of_serial [Inhabited α] (h : RBTree.insertBody.Serial .empty log S) :
    (∃ t, Holding S (values log) t) ∧ Answered log := by
  induction h with
  | nil => exact ⟨⟨.nil, holding_empty⟩, nofun, fun _ _ _ _ _ heq => absurd heq (by simp)⟩
  | concat _ hrun ih =>
    obtain ⟨⟨t, ht⟩, hanswered⟩ := ih
    obtain ⟨hres, t', ht'⟩ := ht.runs hrun
    refine ⟨⟨t', ?_⟩, hanswered.concat hres⟩
    rw [values, List.map_append]
    exact ht'

/-- However many threads insert, and however their turns alternate, at most one is inside at a time.
The calls that have gone through all had one and the same value: the first has returned 1 and the
others -1. While no thread is inside, the tree is the ordered set of their values; and one that is
inside returns by turns of its own if no value is there yet or if its value is, and otherwise never. -/
theorem threads_insert [DecidableEq ι] [Inhabited α]
    (s : System ι α (InsertPos α) ℤ (RBTree α))
    (h : Reachable (System.step RBTree.insertBody) (fun _ _ => True) (.init .empty) s) :
    (∀ i j, (s.threads i).Holds → (s.threads j).Holds → i = j) ∧
    Answered s.log ∧
    (s.flag = false → ∃ t, OrderedSet s.shared (values s.log) t) ∧
    ∀ i v pos, s.threads i = .inside v pos →
      ((∃ n r, loop RBTree.insertBody.whole n (pos, s.shared) = some r) ↔
        values s.log = [] ∨ v ∈ values s.log) := by
  have hguarded := System.guarded h
  obtain ⟨S, hserial, -, hgoing⟩ := hguarded.serial
  obtain ⟨⟨t, ht⟩, hanswered⟩ := holding_of_serial hserial
  refine ⟨hguarded.exclusive, hanswered, ?_, ?_⟩
  · intro hfree
    obtain ⟨⟨t, ht⟩, -⟩ := holding_of_serial (hguarded.shared_of_free hfree)
    exact ⟨t, ht.orderedSet⟩
  · intro i v pos hi
    have hcall := hgoing i v pos hi
    rw [← ht.returns_iff v]
    constructor
    · rintro ⟨n, r, hn⟩
      obtain ⟨m, hm⟩ := hcall.loops hn
      exact ⟨m, r, hm⟩
    · rintro ⟨n, r, hn⟩
      obtain ⟨m, hm⟩ := hcall.rest hn
      exact ⟨m, r, hm⟩

/-- The second thread spins while the first one inserts a value, and then comes with the same one. At
the end the first one is inside with another value. -/
def threeInserts : List (Event Bool ℕ) :=
  [.call true 5, .call false 5, .testAndSet true, .turn true, .testAndSet false, .turn true,
    .clear true, .testAndSet false, .turn false, .turn false, .turn false, .clear false,
    .call true 6, .testAndSet true, .turn true]

theorem threads_insert_three : ∃ s : System Bool ℕ (InsertPos ℕ) ℤ (RBTree ℕ),
    runIf (System.step RBTree.insertBody) (fun _ _ => True) (.init .empty) threeInserts = some s ∧
    s.log = [(true, 5, 1), (false, 5, -1)] ∧ s.threads true = .inside 6 (.test 2 6) ∧
    ∀ n, loop RBTree.insertBody.whole n (.test 2 6, s.shared) = none := by
  obtain ⟨s, hs, hlog, hinside⟩ : ∃ s : System Bool ℕ (InsertPos ℕ) ℤ (RBTree ℕ),
      runIf (System.step RBTree.insertBody) (fun _ _ => True) (.init .empty) threeInserts = some s ∧
      s.log = [(true, 5, 1), (false, 5, -1)] ∧ s.threads true = .inside 6 (.test 2 6) :=
    ⟨_, rfl, rfl, rfl⟩
  obtain ⟨-, -, -, hreturn⟩ := threads_insert s (.of_runIf .init hs)
  refine ⟨s, hs, hlog, hinside, fun n => ?_⟩
  have hnew : ¬ (values s.log = [] ∨ 6 ∈ values s.log) := by
    rw [hlog]
    decide
  rw [← hreturn true 6 _ hinside] at hnew
  rw [Option.eq_none_iff_forall_ne_some]
  exact fun r hr => hnew ⟨n, r, hr⟩

end Threads

end MgRaffle.RbTree
