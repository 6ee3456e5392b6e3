import MgRaffle.Library.Processes
import MgRaffle.Library.Stepping

open Processes Stepping

namespace MgRaffle.Utils

/-- Where the parent stands: in the loop of `multi_create`, with `left` calls of `fork` to come; at
the head of the loop of `watch_process`; in the loop over `pool`, with the entries it has not come
to; or it has returned. -/
inductive MultiCtrl
  | creating (left : ℕ)
  | watch
  | scan (todo : List ℕ)
  | returned
  deriving Repr, DecidableEq

/-- The parent. `pool` are the keys of the map in their order; `forks`, `reaped`, `passes` and
`interrupted` count the children made and waited for, the loops over `pool`, and the calls of
`waitpid` that a signal ended. -/
structure Multi where
  pool : List ℕ
  children : Table Unit Unit
  ctrl : MultiCtrl
  forks : ℕ
  reaped : ℕ
  passes : ℕ
  interrupted : ℕ

/-- What `fork` returns to the parent; the parent going on; a signal while it waits; a child coming
to its end. -/
inductive MultiEvent
  | forked (pid : ℕ)
  | forkFailed
  | run
  | signal
  | exits (pid : ℕ)
  deriving Repr, DecidableEq

/-- The entries of `pool` that the loop has not come to. -/
def MultiCtrl.todo : MultiCtrl → List ℕ
  | .scan todo => todo
  | _ => []

namespace Multi

/-- `multi_create(procnum, threadnum)`, behind `set_multi_env`. -/
def start (procnum : ℤ) : Multi := ⟨[], fun _ => none, .creating procnum.toNat, 0, 0, 0, 0⟩

/-- `pool[pid] = true`. -/
def note (pool : List ℕ) (pid : ℕ) : List ℕ :=
  if pid ∈ pool then pool else pool.orderedInsert (· ≤ ·) pid

/-- `waitpid(pid, NULL, 0)`: it blocks while the child runs, and fails where there is none. -/
def wait (s : Multi) (pid : ℕ) (todo : List ℕ) : Option Multi :=
  match s.children pid with
  | some ⟨_, none⟩ => none
  | some ⟨_, some _⟩ => (s.children.reap pid).map fun children => { s with
      pool := s.pool.erase pid, children := children, ctrl := .scan todo, reaped := s.reaped + 1 }
  | none => some { s with ctrl := .scan todo }

def run (s : Multi) : Option Multi :=
  match s.ctrl with
  | .creating 0 => some { s with ctrl := .watch }
  | .creating (_ + 1) => none
  | .watch =>
    if s.pool = [] then some { s with ctrl := .returned }
    else some { s with ctrl := .scan s.pool, passes := s.passes + 1 }
  | .scan (pid :: todo) => s.wait pid todo
  | .scan [] => some { s with ctrl := .watch }
  | .returned => none

def step (s : Multi) (e : MultiEvent) : Option Multi :=
  match e, s.ctrl with
  | .forked pid, .creating (left + 1) => (s.children.fork pid ()).map fun children => { s with
      pool := note s.pool pid, children := children, ctrl := .creating left, forks := s.forks + 1 }
  | .forkFailed, .creating (_ + 1) => some { s with ctrl := .watch }
  | .run, _ => s.run
  | .signal, .scan (_ :: todo) =>
    some { s with ctrl := .scan todo, interrupted := s.interrupted + 1 }
  | .exits pid, _ => (s.children.exit pid ()).map fun children => { s with children := children }
  | _, _ => none

/-- The invariant of the parent. -/
structure Watched (s : Multi) : Prop where
  tracked : s.children.Tracked fun _ pid => pid ∈ s.pool
  nodup : s.pool.Nodup
  todo : s.ctrl.todo.Nodup ∧ s.ctrl.todo ⊆ s.pool
  counted : s.forks = s.reaped + s.pool.length
  empty : s.ctrl = .returned → s.pool = []
  fresh : ∀ left, s.ctrl = .creating left → s.passes = 0
  passed : s.passes ≤ s.interrupted ∨ s.passes = s.interrupted + 1 ∧ s.pool ⊆ s.ctrl.todo

/-- Every child has come to its end. -/
def Over (s : Multi) : Prop := ∀ pid child, s.children pid = some child → child.fate ≠ none

variable {s t : Multi} {e : MultiEvent} {pid : ℕ} {pool todo : List ℕ}

theorem mem_note {p : ℕ} : p ∈ note pool pid ↔ p = pid ∨ p ∈ pool := by
  unfold note
  split_ifs with h
  · constructor
    · exact Or.inr
    · rintro (rfl | hp)
      · exact h
      · exact hp
  · exact List.mem_orderedInsert _

theorem note_perm (h : pid ∉ pool) : (note pool pid).Perm (pid :: pool) := by
  rw [note, if_neg h]
  exact List.perm_orderedInsert _ _ _

theorem watched_start (procnum : ℤ) : (start procnum).Watched where
  tracked := Table.tracked_nobody fun _ _ h => absurd h List.not_mem_nil
  nodup := List.nodup_nil
  todo := ⟨List.nodup_nil, List.nil_subset _⟩
  counted := rfl
  empty := fun _ => rfl
  fresh := fun _ _ => rfl
  passed := Or.inl le_rfl

theorem Watched.exists_child (h : s.Watched) (hpid : pid ∈ s.pool) :
    ∃ fate, s.children pid = some ⟨(), fate⟩ :=
  (h.tracked () pid).mp hpid

/-- The parent goes on from outside the loop over `pool`, or from its end. -/
theorem Watched.goes (h : s.Watched) {ctrl : MultiCtrl} (htodo : s.ctrl.todo = [])
    (htodo' : ctrl.todo = []) (hret : ctrl = .returned → s.pool = [])
    (hnew : ∀ left, ctrl ≠ .creating left) : Watched { s with ctrl := ctrl } := by
  have hold := h.todo
  have hpassed := h.passed
  rw [htodo, ← htodo'] at hold hpassed
  exact ⟨h.tracked, h.nodup, hold, h.counted, hret, fun left hl => absurd hl (hnew left), hpassed⟩

/-- `waitpid` returns a child that has ended. -/
theorem Watched.waited (h : s.Watched) (hctrl : s.ctrl = .scan (pid :: todo))
    {children : Table Unit Unit} (hreap : s.children.reap pid = some children) :
    Watched { s with
      pool := s.pool.erase pid, children := children
      ctrl := .scan todo, reaped := s.reaped + 1 } := by
  obtain ⟨hnodup, hsub⟩ := h.todo
  rw [show s.ctrl.todo = pid :: todo by rw [hctrl]; rfl] at hnodup hsub
  rw [List.nodup_cons] at hnodup
  have hmem : pid ∈ s.pool := hsub List.mem_cons_self
  refine ⟨?_, h.nodup.erase _, ⟨hnodup.2, ?_⟩, ?_, fun hret => (by cases hret),
    fun _ hnew => (by cases hnew), ?_⟩
  · apply (h.tracked.reap hreap).congr
    intro _ p
    rw [h.nodup.mem_erase_iff, and_comm]
  · intro p hp
    rw [h.nodup.mem_erase_iff]
    refine ⟨?_, hsub (List.mem_cons_of_mem _ hp)⟩
    rintro rfl
    exact hnodup.1 hp
  · show s.forks = s.reaped + 1 + (s.pool.erase pid).length
    have hpos := List.length_pos_of_mem hmem
    rw [List.length_erase_of_mem hmem, h.counted]
    omega
  · apply h.passed.imp_right
    rintro ⟨hpasses, hall⟩
    refine ⟨hpasses, fun p hp => ?_⟩
    obtain ⟨hne, hp⟩ := h.nodup.mem_erase_iff.mp hp
    have hp := hall hp
    rw [hctrl] at hp
    exact (List.mem_cons.mp hp).resolve_left hne

theorem watched_run (h : s.Watched) (hrun : s.run = some t) : t.Watched := by
  unfold run at hrun
  split at hrun
  · rename_i hctrl
    cases hrun
    exact h.goes (by rw [hctrl]; rfl) rfl MultiCtrl.noConfusion fun _ => MultiCtrl.noConfusion
  · cases hrun
  · rename_i hctrl
    split_ifs at hrun with hempty
    · cases hrun
      exact h.goes (by rw [hctrl]; rfl) rfl (fun _ => hempty) fun _ => MultiCtrl.noConfusion
    · cases hrun
      have hpassed := h.passed
      rw [hctrl] at hpassed
      -- something is left of the pool, so a call of the last pass was interrupted
      have hless : s.passes ≤ s.interrupted := by
        rcases hpassed with hless | ⟨-, hall⟩
        · exact hless
        · exact absurd (List.subset_nil.mp hall) hempty
      refine ⟨h.tracked, h.nodup, ⟨h.nodup, List.Subset.refl _⟩, h.counted,
        fun hret => (by cases hret), fun _ hnew => (by cases hnew), ?_⟩
      rcases hless.lt_or_eq with hlt | heq
      · exact Or.inl hlt
      · exact Or.inr ⟨congrArg (· + 1) heq, List.Subset.refl _⟩
  · rename_i pid todo hctrl
    have hmem : pid ∈ s.pool := h.todo.2 (by rw [hctrl]; exact List.mem_cons_self)
    unfold wait at hrun
    split at hrun
    · cases hrun
    · obtain ⟨children, hreap, rfl⟩ := Option.map_eq_some_iff.mp hrun
      exact h.waited hctrl hreap
    · rename_i hnone
      obtain ⟨fate, hchild⟩ := h.exists_child hmem
      rw [hnone] at hchild
      cases hchild
  · rename_i hctrl
    cases hrun
    exact h.goes (by rw [hctrl]; rfl) rfl MultiCtrl.noConfusion fun _ => MultiCtrl.noConfusion
  · cases hrun

theorem watched_step (h : s.Watched) (hstep : s.step e = some t) : t.Watched := by
  unfold step at hstep
  split at hstep
  · rename_i pid left hctrl
    obtain ⟨children, hfork, rfl⟩ := Option.map_eq_some_iff.mp hstep
    obtain ⟨-, hnone, -⟩ := Table.fork_eq_some.mp hfork
    have hnew : pid ∉ s.pool := by
      intro hmem
      obtain ⟨fate, hchild⟩ := h.exists_child hmem
      rw [hnone] at hchild
      cases hchild
    have hperm := note_perm hnew
    refine ⟨?_, hperm.nodup_iff.mpr (List.nodup_cons.mpr ⟨hnew, h.nodup⟩),
      ⟨List.nodup_nil, List.nil_subset _⟩, ?_, fun hret => (by cases hret),
      fun _ _ => h.fresh _ hctrl, Or.inl ?_⟩
    · apply (h.tracked.fork hfork).congr
      intro _ p
      rw [mem_note, or_comm]
      simp
    · show s.forks + 1 = s.reaped + (note s.pool pid).length
      rw [hperm.length_eq, List.length_cons, h.counted]
      rfl
    · show s.passes ≤ s.interrupted
      rw [h.fresh _ hctrl]
      exact Nat.zero_le _
  · rename_i left hctrl
    cases hstep
    exact h.goes (by rw [hctrl]; rfl) rfl MultiCtrl.noConfusion fun _ => MultiCtrl.noConfusion
  · exact watched_run h hstep
  · rename_i pid todo hctrl
    cases hstep
    -- the child stays in `pool`, for one pass more
    obtain ⟨hnodup, hsub⟩ := h.todo
    rw [show s.ctrl.todo = pid :: todo by rw [hctrl]; rfl] at hnodup hsub
    refine ⟨h.tracked, h.nodup, ⟨(List.nodup_cons.mp hnodup).2, ?_⟩, h.counted,
      fun hret => (by cases hret), fun _ hnew => (by cases hnew), Or.inl ?_⟩
    · exact fun p hp => hsub (List.mem_cons_of_mem _ hp)
    · show s.passes ≤ s.interrupted + 1
      rcases h.passed with hless | ⟨heq, -⟩
      · exact hless.trans (Nat.le_succ _)
      · exact heq.le
  · obtain ⟨children, hexit, rfl⟩ := Option.map_eq_some_iff.mp hstep
    exact ⟨h.tracked.exit hexit, h.nodup, h.todo, h.counted, h.empty, h.fresh, h.passed⟩
  · cases hstep

section Ending

/-- With no child running, and no signal, the loop over `pool` waits for all that it has to come to. -/
theorem Watched.finish (h : s.Watched) (hover : s.Over) (hctrl : s.ctrl = .scan todo) :
    ∃ t, Reaches run s t ∧ t.ctrl = .watch ∧ t.Watched ∧ t.Over ∧ t.pool ⊆ s.pool ∧
      ∀ pid ∈ t.pool, pid ∉ todo := by
  induction todo generalizing s with
  | nil =>
    have hrun : s.run = some { s with ctrl := .watch } := by simp only [run, hctrl]
    refine ⟨_, .single hrun, rfl, watched_run h hrun, hover, List.Subset.refl _, ?_⟩
    exact fun _ _ => List.not_mem_nil
  | cons pid todo ih =>
    obtain ⟨fate, hchild⟩ := h.exists_child (h.todo.2 (by rw [hctrl]; exact List.mem_cons_self))
    -- nobody runs, so that `waitpid` returns the child at once
    obtain ⟨fate, rfl⟩ := Option.ne_none_iff_exists'.mp (hover pid _ hchild)
    have hreap : s.children.reap pid = some (Function.update s.children pid none) :=
      Table.reap_eq_some.mpr ⟨⟨(), fate, hchild⟩, rfl⟩
    have hrun : s.run = some { s with
        pool := s.pool.erase pid, children := Function.update s.children pid none
        ctrl := .scan todo, reaped := s.reaped + 1 } := by
      simp only [run, hctrl, wait, hchild, hreap, Option.map_some]
    have hover' : Over { s with
        pool := s.pool.erase pid, children := Function.update s.children pid none
        ctrl := .scan todo, reaped := s.reaped + 1 } := by
      intro p child hp
      have hp : Function.update s.children pid none p = some child := hp
      rw [Function.update_apply] at hp
      split_ifs at hp
      exact hover p child hp
    obtain ⟨t, hreach, hwatch, hwatched, hend, hsub, hnot⟩ := ih (watched_run h hrun) hover' rfl
    refine ⟨t, .next hrun hreach, hwatch, hwatched, hend,
      fun p hp => List.mem_of_mem_erase (hsub hp), fun p hp hmem => ?_⟩
    rcases List.mem_cons.mp hmem with rfl | hmem
    · exact (h.nodup.mem_erase_iff.mp (hsub hp)).1 rfl
    · exact hnot p hp hmem

/-- One more loop, and `watch_process` returns. -/
theorem Watched.ends (h : s.Watched) (hover : s.Over) (hctrl : s.ctrl = .watch) :
    ∃ t, Returns run s t ∧ t.ctrl = .returned ∧ t.pool = [] := by
  have hlast (u : Multi) (hu : u.ctrl = .watch) (hempty : u.pool = []) :
      ∃ t, Returns run u t ∧ t.ctrl = .returned ∧ t.pool = [] := by
    have hrun : u.run = some { u with ctrl := .returned } := by
      simp only [run, hu, hempty, if_pos]
    exact ⟨_, ⟨.single hrun, rfl⟩, rfl, hempty⟩
  by_cases hempty : s.pool = []
  · exact hlast s hctrl hempty
  · have hrun : s.run = some { s with ctrl := .scan s.pool, passes := s.passes + 1 } := by
      simp only [run, hctrl, if_neg hempty]
    -- the loop begins with the whole of `pool`, and leaves nothing of it
    obtain ⟨u, hreach, hwatch, -, -, hsub, hnot⟩ := (watched_run h hrun).finish hover rfl
    have hnil : u.pool = [] := List.eq_nil_iff_forall_not_mem.mpr fun p hp => hnot p hp (hsub hp)
    obtain ⟨t, ⟨hreach', hend⟩, hret⟩ := hlast u hwatch hnil
    exact ⟨t, ⟨.next hrun (hreach.trans hreach'), hend⟩, hret⟩

end Ending

/-- Whenever children end and signals come: `pool` are the children that were not waited for, and
`waitpid` is only called for one of these; when `watch_process` returns, each child made was waited
for once. There is one loop over `pool` more than interrupted calls at most, and once all children
have ended the parent, when it is not disturbed, returns. -/
theorem watch_process_waits (procnum : ℤ) (s : Multi)
    (h : Reachable step (fun _ _ => True) (start procnum) s) :
    (∀ pid, pid ∈ s.pool ↔ s.children pid ≠ none) ∧
    (∀ pid todo, s.ctrl = .scan (pid :: todo) → s.children pid ≠ none) ∧
    (s.ctrl = .returned → s.reaped = s.forks ∧ ∀ pid, s.children pid = none) ∧
    s.passes ≤ s.interrupted + 1 ∧
    ((∀ left, s.ctrl ≠ .creating left) → s.Over →
      ∃ t, Returns run s t ∧ t.ctrl = .returned ∧ t.pool = []) := by
  have hwatched : s.Watched := by
    apply h.invariant Watched (watched_start procnum)
    intro s e t hs _ hstep
    exact watched_step hs hstep
  have hpool (pid : ℕ) : pid ∈ s.pool ↔ s.children pid ≠ none := by
    constructor
    · intro hmem
      obtain ⟨fate, hchild⟩ := hwatched.exists_child hmem
      rw [hchild]
      exact Option.some_ne_none _
    · intro hne
      obtain ⟨child, hchild⟩ := Option.ne_none_iff_exists'.mp hne
      exact (hwatched.tracked () pid).mpr ⟨child.fate, hchild⟩
  refine ⟨hpool, ?_, ?_, ?_, ?_⟩
  · intro pid todo hctrl
    exact (hpool pid).mp (hwatched.todo.2 (by rw [hctrl]; exact List.mem_cons_self))
  · intro hctrl
    have hempty := hwatched.empty hctrl
    refine ⟨?_, fun pid => ?_⟩
    · rw [hwatched.counted, hempty]
      rfl
    · by_contra hne
      have hmem := (hpool pid).mpr hne
      rw [hempty] at hmem
      cases hmem
  · rcases hwatched.passed with hless | ⟨heq, -⟩
    · exact hless.trans (Nat.le_succ _)
    · exact heq.le
  · intro hnot hover
    cases hctrl : s.ctrl with
    | creating left => exact absurd hctrl (hnot left)
    | watch => exact hwatched.ends hover hctrl
    | scan todo =>
      obtain ⟨u, hreach, hwatch, hu, hend, -, -⟩ := hwatched.finish hover hctrl
      obtain ⟨t, ⟨hreach', hret⟩, ht⟩ := hu.ends hend hwatch
      exact ⟨t, ⟨hreach.trans hreach', hret⟩, ht⟩
    | returned =>
      refine ⟨s, ⟨.refl, ?_⟩, hctrl, hwatched.empty hctrl⟩
      simp only [run, hctrl]

/-- Two children; the first call of `waitpid` is interrupted, and the second one finds its child. -/
def interruptedEvents : List MultiEvent :=
  [.forked 7, .forked 5, .run, .run, .signal, .exits 7, .run, .run, .run, .exits 5, .run, .run, .run]

theorem watch_process_waits_interrupted : ∃ s,
    runIf step (fun _ _ => True) (start 2) interruptedEvents = some s ∧ s.passes = 2 ∧
    s.interrupted = 1 ∧ s.reaped = s.forks ∧ ∀ pid, s.children pid = none := by
  have hrun : (runIf step (fun _ _ => True) (start 2) interruptedEvents).map (fun s =>
      (s.passes, s.interrupted, s.ctrl)) = some (2, 1, .returned) := by decide
  obtain ⟨s, hs, hrest⟩ := Option.map_eq_some_iff.mp hrun
  simp only [Prod.mk.injEq] at hrest
  obtain ⟨hpasses, hinterrupted, hctrl⟩ := hrest
  obtain ⟨-, -, hreturned, -⟩ := watch_process_waits 2 s (.of_runIf .init hs)
  exact ⟨s, hs, hpasses, hinterrupted, hreturned hctrl⟩

end Multi

end MgRaffle.Utils
