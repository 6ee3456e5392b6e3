import MgRaffle.Library.Processes
import MgRaffle.Library.Stepping

open Processes Stepping

namespace MgRaffle.MgServer

/-- Where `watch_dog` stands: at the head of its inner loop; in the loop over `pool`, with the
entries it has not come to; in `sleep`; or it has called `exit`. -/
inductive WatchCtrl
  | forking
  | scan (todo : List ℕ)
  | sleep
  | exited
  deriving Repr, DecidableEq

/-- The children are started with the mask of one CPU each. `round` counts the loops over `pool`, and
a child that ends keeps the round in which it did. -/
structure WatchDog where
  cpunum : ℕ
  pool : ℕ → Option ℕ
  myqueue : List ℕ
  children : Table ℕ ℕ
  ctrl : WatchCtrl
  round : ℕ

/-- What `fork` returns to the parent; the parent going on; a child coming to its end. -/
inductive WatchEvent
  | forked (pid : ℕ)
  | forkFailed
  | run
  | exits (pid : ℕ)
  deriving Repr, DecidableEq

/-- The entries of `pool` that the loop has not come to. -/
def WatchCtrl.todo : WatchCtrl → List ℕ
  | .scan todo => todo
  | _ => []

namespace WatchDog

def start (cpunum : ℕ) : WatchDog :=
  ⟨cpunum, fun _ => none, List.range cpunum, fun _ => none, .forking, 0⟩

/-- The keys of `pool`, in their order. -/
def keys (s : WatchDog) : List ℕ := (List.range s.cpunum).filter fun cpu => (s.pool cpu).isSome

/-- The loop over `pool` comes to an entry. `none` for a `waitpid` that waits for any child. -/
def check (s : WatchDog) (cpu : ℕ) (todo : List ℕ) : Option WatchDog :=
  match s.pool cpu with
  | some (pid + 1) =>
    match s.children.reap (pid + 1) with
    | some children => some { s with
        pool := Function.update s.pool cpu (some 0)
        myqueue := s.myqueue ++ [cpu]
        children := children
        ctrl := .scan todo }
    | none => some { s with ctrl := .scan todo }
  | _ => none

def step (s : WatchDog) (e : WatchEvent) : Option WatchDog :=
  match e, s.ctrl, s.myqueue with
  | .forked pid, .forking, cpu :: myqueue => (s.children.fork pid cpu).map fun children =>
      { s with
        pool := Function.update s.pool cpu (some pid), myqueue := myqueue, children := children }
  | .forkFailed, .forking, _ :: _ => some { s with ctrl := .exited }
  | .run, .forking, [] => some { s with ctrl := .scan s.keys, round := s.round + 1 }
  | .run, .scan (cpu :: todo), _ => s.check cpu todo
  | .run, .scan [], _ => some { s with ctrl := .sleep }
  | .run, .sleep, _ => some { s with ctrl := .forking }
  | .exits pid, _, _ => (s.children.exit pid s.round).map fun children =>
      { s with children := children }
  | _, _, _ => none

/-- The parent knows the child by the entry of its CPU. -/
def Notes (s : WatchDog) (cpu pid : ℕ) : Prop := s.pool cpu = some pid ∧ 0 < pid

/-- The invariant of `watch_dog`. -/
structure Watched (s : WatchDog) : Prop where
  keys : ∀ cpu pid, s.pool cpu = some pid → cpu < s.cpunum
  tracked : s.children.Tracked s.Notes
  nodup : s.myqueue.Nodup
  below : ∀ cpu ∈ s.myqueue, cpu < s.cpunum
  queued : ∀ cpu < s.cpunum, cpu ∈ s.myqueue ↔ ∀ pid, ¬ s.Notes cpu pid
  todo : s.ctrl.todo.Nodup ∧ ∀ cpu ∈ s.ctrl.todo, cpu < s.cpunum ∧ cpu ∉ s.myqueue
  fates : ∀ pid cpu round, s.children pid = some ⟨cpu, some round⟩ →
    round ≤ s.round ∧ s.round ≤ round + 1 ∧ (cpu ∉ s.ctrl.todo → round = s.round)

variable {s t : WatchDog} {e : WatchEvent} {cpu pid : ℕ} {todo : List ℕ}

/-- Everything that a step can do. -/
inductive Stepped (s : WatchDog) : WatchDog → Prop
  | forked {pid cpu : ℕ} {myqueue : List ℕ} {children : Table ℕ ℕ} (hctrl : s.ctrl = .forking)
      (hqueue : s.myqueue = cpu :: myqueue) (hfork : s.children.fork pid cpu = some children) :
      Stepped s { s with
        pool := Function.update s.pool cpu (some pid), myqueue := myqueue, children := children }
  | scans (hctrl : s.ctrl = .forking) (hqueue : s.myqueue = []) :
      Stepped s { s with ctrl := .scan s.keys, round := s.round + 1 }
  | reaped {cpu pid : ℕ} {todo : List ℕ} {children : Table ℕ ℕ} (hctrl : s.ctrl = .scan (cpu :: todo))
      (hnotes : s.Notes cpu pid) (hreap : s.children.reap pid = some children) :
      Stepped s { s with
        pool := Function.update s.pool cpu (some 0), myqueue := s.myqueue ++ [cpu]
        children := children, ctrl := .scan todo }
  | lives {cpu pid : ℕ} {todo : List ℕ} (hctrl : s.ctrl = .scan (cpu :: todo))
      (hnotes : s.Notes cpu pid) (hreap : s.children.reap pid = none) :
      Stepped s { s with ctrl := .scan todo }
  | goes {ctrl : WatchCtrl} (htodo : s.ctrl.todo = []) (htodo' : ctrl.todo = []) :
      Stepped s { s with ctrl := ctrl }
  | exits {pid : ℕ} {children : Table ℕ ℕ} (hexit : s.children.exit pid s.round = some children) :
      Stepped s { s with children := children }

theorem stepped_of_check (hctrl : s.ctrl = .scan (cpu :: todo)) (h : s.check cpu todo = some t) :
    Stepped s t := by
  unfold check at h
  split at h
  · rename_i pid hpool
    have hnotes : s.Notes cpu (pid + 1) := ⟨hpool, Nat.succ_pos pid⟩
    split at h
    · cases h
      exact .reaped hctrl hnotes ‹_›
    · cases h
      exact .lives hctrl hnotes ‹_›
  · cases h

theorem stepped_of_step (h : s.step e = some t) : Stepped s t := by
  unfold step at h
  split at h
  · obtain ⟨children, hfork, rfl⟩ := Option.map_eq_some_iff.mp h
    exact .forked ‹_› ‹_› hfork
  · rename_i hctrl _
    cases h
    exact .goes (by rw [hctrl]; rfl) rfl
  · cases h
    exact .scans ‹_› ‹_›
  · exact stepped_of_check ‹_› h
  · rename_i hctrl
    cases h
    exact .goes (by rw [hctrl]; rfl) rfl
  · rename_i hctrl
    cases h
    exact .goes (by rw [hctrl]; rfl) rfl
  · obtain ⟨children, hexit, rfl⟩ := Option.map_eq_some_iff.mp h
    exact .exits hexit
  · cases h

theorem watched_start (cpunum : ℕ) : (start cpunum).Watched where
  keys := fun _ _ h => (by cases h)
  tracked := Table.tracked_nobody fun _ _ h => (by cases h.1)
  nodup := List.nodup_range
  below := fun _ h => List.mem_range.mp h
  queued := by
    intro cpu hcpu
    exact ⟨fun _ _ h => (by cases h.1), fun _ => List.mem_range.mpr hcpu⟩
  todo := ⟨List.nodup_nil, fun _ h => absurd h List.not_mem_nil⟩
  fates := fun _ _ _ h => (by cases h)

/-- An entry is written for a CPU that exists. -/
theorem Watched.keys_update (h : s.Watched) (hcpu : cpu < s.cpunum) {entry : Option ℕ} {c p : ℕ}
    (hp : Function.update s.pool cpu entry c = some p) : c < s.cpunum := by
  by_cases hc : c = cpu
  · rw [hc]
    exact hcpu
  · rw [Function.update_of_ne hc] at hp
    exact h.keys c p hp

/-- A queued CPU gets a child. -/
theorem Watched.forked (h : s.Watched) {myqueue : List ℕ} {children : Table ℕ ℕ}
    (hctrl : s.ctrl = .forking) (hqueue : s.myqueue = cpu :: myqueue)
    (hfork : s.children.fork pid cpu = some children) :
    Watched { s with
      pool := Function.update s.pool cpu (some pid), myqueue := myqueue, children := children } := by
  obtain ⟨hpos, hnone, hchildren⟩ := Table.fork_eq_some.mp hfork
  have hcpu : cpu < s.cpunum := h.below cpu (by rw [hqueue]; exact List.mem_cons_self)
  have hidle : ∀ pid, ¬ s.Notes cpu pid :=
    (h.queued cpu hcpu).mp (by rw [hqueue]; exact List.mem_cons_self)
  have hnodup := h.nodup
  rw [hqueue, List.nodup_cons] at hnodup
  have hsub (c : ℕ) (hc : c ∈ myqueue) : c ∈ s.myqueue := by
    rw [hqueue]
    exact List.mem_cons_of_mem _ hc
  -- the entry of the CPU was 0 or absent; that of no other one changes
  have hnotes (c p : ℕ) :
      (Function.update s.pool cpu (some pid) c = some p ∧ 0 < p) ↔
        s.Notes c p ∨ c = cpu ∧ p = pid := by
    by_cases hc : c = cpu
    · rw [hc, Function.update_self, Option.some.injEq]
      constructor
      · rintro ⟨rfl, -⟩
        exact Or.inr ⟨rfl, rfl⟩
      · rintro (hn | ⟨-, rfl⟩)
        · exact absurd hn (hidle p)
        · exact ⟨rfl, hpos⟩
    · rw [Function.update_of_ne hc]
      simp only [hc, false_and, or_false]
      rfl
  refine ⟨?_, (h.tracked.fork hfork).congr hnotes, hnodup.2, ?_, ?_, ?_, ?_⟩
  · exact fun _ _ hp => h.keys_update hcpu hp
  · exact fun c hc => h.below c (hsub c hc)
  · intro c hc
    show c ∈ myqueue ↔ ∀ p, ¬ (Function.update s.pool cpu (some pid) c = some p ∧ 0 < p)
    by_cases heq : c = cpu
    · rw [heq]
      constructor
      · exact fun hmem => absurd hmem hnodup.1
      · exact fun hnot => absurd ((hnotes cpu pid).mpr (Or.inr ⟨rfl, rfl⟩)) (hnot pid)
    · have hold := h.queued c hc
      rw [hqueue, List.mem_cons, or_iff_right heq] at hold
      rw [hold]
      apply forall_congr'
      intro p
      rw [hnotes c p]
      simp only [heq, false_and, or_false]
  · rw [show s.ctrl.todo = [] by rw [hctrl]; rfl]
    exact ⟨List.nodup_nil, fun _ hc => absurd hc List.not_mem_nil⟩
  · intro p c r hr
    have hr : children p = some ⟨c, some r⟩ := hr
    rw [hchildren] at hr
    by_cases hp : p = pid
    · rw [hp, Function.update_self] at hr
      cases hr
    · rw [Function.update_of_ne hp] at hr
      exact h.fates p c r hr

/-- The loop over `pool` begins. -/
theorem Watched.scans (h : s.Watched) (hctrl : s.ctrl = .forking) (hqueue : s.myqueue = []) :
    Watched { s with ctrl := .scan s.keys, round := s.round + 1 } := by
  have htodo : s.ctrl.todo = [] := by rw [hctrl]; rfl
  refine ⟨h.keys, h.tracked, h.nodup, h.below, h.queued, ⟨?_, ?_⟩, ?_⟩
  · exact List.nodup_range.filter _
  · intro c hc
    rw [hqueue]
    exact ⟨List.mem_range.mp (List.mem_of_mem_filter hc), List.not_mem_nil⟩
  · intro p c r hr
    obtain ⟨hle, -, hsame⟩ := h.fates p c r hr
    have hr' : r = s.round := hsame (by rw [htodo]; exact List.not_mem_nil)
    refine ⟨hle.trans (Nat.le_succ _), by show s.round + 1 ≤ r + 1; omega, ?_⟩
    intro hnot
    -- the child has an entry, so its CPU is among the keys
    obtain ⟨hpool, -⟩ := (h.tracked c p).mpr ⟨some r, hr⟩
    have hmem : c ∈ s.keys := List.mem_filter.mpr
      ⟨List.mem_range.mpr (h.keys c p hpool), by rw [hpool]; rfl⟩
    exact absurd hmem hnot

/-- A child that has ended is waited for, and its CPU is queued. -/
theorem Watched.reaped (h : s.Watched) {children : Table ℕ ℕ} (hctrl : s.ctrl = .scan (cpu :: todo))
    (hnote : s.Notes cpu pid) (hreap : s.children.reap pid = some children) :
    Watched { s with
      pool := Function.update s.pool cpu (some 0), myqueue := s.myqueue ++ [cpu]
      children := children, ctrl := .scan todo } := by
  obtain ⟨-, hchildren⟩ := Table.reap_eq_some.mp hreap
  obtain ⟨hnodup, htodo⟩ := h.todo
  rw [show s.ctrl.todo = cpu :: todo by rw [hctrl]; rfl] at hnodup htodo
  obtain ⟨hcpu, hfree⟩ := htodo cpu List.mem_cons_self
  rw [List.nodup_cons] at hnodup
  have hnotes (c p : ℕ) : (Function.update s.pool cpu (some 0) c = some p ∧ 0 < p) ↔
      s.Notes c p ∧ c ≠ cpu := by
    by_cases hc : c = cpu
    · rw [hc, Function.update_self, Option.some.injEq]
      simp only [ne_eq, not_true_eq_false, and_false, iff_false]
      omega
    · rw [Function.update_of_ne hc]
      simp only [ne_eq, hc, not_false_eq_true, and_true]
      rfl
  -- CPUs and children belong together one to one
  have hother (c p : ℕ) (hn : s.Notes c p) : p ≠ pid ↔ c ≠ cpu := by
    apply not_congr
    constructor
    · rintro rfl
      exact h.tracked.unique hn hnote
    · rintro rfl
      exact Option.some.inj (hn.1.symm.trans hnote.1)
  refine ⟨?_, (h.tracked.reap hreap).congr fun c p => ?_, ?_, ?_, ?_, ⟨hnodup.2, ?_⟩, ?_⟩
  · exact fun _ _ hp => h.keys_update hcpu hp
  · exact (hnotes c p).trans (and_congr_right fun hn => (hother c p hn).symm)
  · exact List.nodup_append.mpr ⟨h.nodup, List.nodup_singleton _, fun c hc d hd => by
      rw [List.mem_singleton.mp hd]
      rintro rfl
      exact hfree hc⟩
  · intro c hc
    rcases List.mem_append.mp hc with hc | hc
    · exact h.below c hc
    · rw [List.mem_singleton.mp hc]
      exact hcpu
  · intro c hc
    show c ∈ s.myqueue ++ [cpu] ↔ ∀ p, ¬ (Function.update s.pool cpu (some 0) c = some p ∧ 0 < p)
    rw [List.mem_append, List.mem_singleton, h.queued c hc]
    by_cases heq : c = cpu
    · simp only [heq, or_true, true_iff]
      intro p hp
      exact ((hnotes cpu p).mp hp).2 rfl
    · rw [or_iff_left heq]
      apply forall_congr'
      intro p
      rw [hnotes c p]
      simp only [ne_eq, heq, not_false_eq_true, and_true]
  · intro c hc
    obtain ⟨hlt, hnot⟩ := htodo c (List.mem_cons_of_mem _ hc)
    refine ⟨hlt, ?_⟩
    intro hmem
    rcases List.mem_append.mp hmem with hmem | hmem
    · exact hnot hmem
    · rw [List.mem_singleton.mp hmem] at hc
      exact hnodup.1 hc
  · intro p c r hr
    have hr : children p = some ⟨c, some r⟩ := hr
    have hp : p ≠ pid := by
      rintro rfl
      rw [hchildren, Function.update_self] at hr
      cases hr
    rw [hchildren, Function.update_of_ne hp] at hr
    obtain ⟨hle, hnext, hsame⟩ := h.fates p c r hr
    refine ⟨hle, hnext, fun hnot => hsame ?_⟩
    have hc : c ≠ cpu := (hother c p ((h.tracked c p).mpr ⟨some r, hr⟩)).mp hp
    rw [hctrl]
    exact fun hmem => (List.mem_cons.mp hmem).elim hc hnot

/-- A child that has not ended is left alone. -/
theorem Watched.lives (h : s.Watched) (hctrl : s.ctrl = .scan (cpu :: todo)) (hnote : s.Notes cpu pid)
    (hreap : s.children.reap pid = none) : Watched { s with ctrl := .scan todo } := by
  obtain ⟨hnodup, htodo⟩ := h.todo
  rw [show s.ctrl.todo = cpu :: todo by rw [hctrl]; rfl] at hnodup htodo
  refine ⟨h.keys, h.tracked, h.nodup, h.below, h.queued, ⟨(List.nodup_cons.mp hnodup).2, ?_⟩, ?_⟩
  · exact fun c hc => htodo c (List.mem_cons_of_mem _ hc)
  · intro p c r hr
    obtain ⟨hle, hnext, hsame⟩ := h.fates p c r hr
    refine ⟨hle, hnext, fun hnot => hsame ?_⟩
    have hc : c ≠ cpu := by
      rintro rfl
      -- it would have been the child that was looked at
      obtain ⟨hpool, -⟩ := (h.tracked c p).mpr ⟨some r, hr⟩
      obtain rfl : p = pid := Option.some.inj (hpool.symm.trans hnote.1)
      have hsome := Table.reap_eq_some.mpr ⟨⟨c, r, hr⟩, rfl⟩
      rw [hreap] at hsome
      cases hsome
    rw [hctrl]
    exact fun hmem => (List.mem_cons.mp hmem).elim hc hnot

/-- A child comes to its end. -/
theorem Watched.exits (h : s.Watched) {children : Table ℕ ℕ}
    (hexit : s.children.exit pid s.round = some children) :
    Watched { s with children := children } := by
  obtain ⟨work, hpid, hchildren⟩ := Table.exit_eq_some.mp hexit
  refine ⟨h.keys, h.tracked.exit hexit, h.nodup, h.below, h.queued, h.todo, ?_⟩
  intro p c r hr
  have hr : children p = some ⟨c, some r⟩ := hr
  rw [hchildren] at hr
  by_cases hp : p = pid
  · rw [hp, Function.update_self] at hr
    cases hr
    exact ⟨le_rfl, Nat.le_succ _, fun _ => rfl⟩
  · rw [Function.update_of_ne hp] at hr
    exact h.fates p c r hr

theorem watched_step (h : s.Watched) (hstep : s.step e = some t) : t.Watched := by
  cases stepped_of_step hstep with
  | forked hctrl hqueue hfork => exact h.forked hctrl hqueue hfork
  | scans hctrl hqueue => exact h.scans hctrl hqueue
  | reaped hctrl hnotes hreap => exact h.reaped hctrl hnotes hreap
  | lives hctrl hnotes hreap => exact h.lives hctrl hnotes hreap
  | goes htodo htodo' =>
    have hold := h.todo
    have hfates := h.fates
    rw [htodo, ← htodo'] at hold
    simp only [htodo, ← htodo'] at hfates
    exact ⟨h.keys, h.tracked, h.nodup, h.below, h.queued, hold, hfates⟩
  | exits hexit => exact h.exits hexit

theorem cpunum_step (h : s.step e = some t) : t.cpunum = s.cpunum := by
  cases stepped_of_step h <;> rfl

/-- Whenever children end: each CPU is queued and has no child, or it has exactly one that was not
waited for, which its entry in `pool` names, and there are no other children. `waitpid` is only
called for such a child. A child that has ended is waited for before the next loop over `pool` is
over. -/
theorem watch_dog_watches (cpunum : ℕ) (s : WatchDog)
    (h : Reachable step (fun _ _ => True) (start cpunum) s) :
    (∀ cpu < cpunum, (cpu ∈ s.myqueue ∧ ∀ pid fate, s.children pid ≠ some ⟨cpu, fate⟩) ∨
      cpu ∉ s.myqueue ∧ ∃! pid, ∃ fate, s.children pid = some ⟨cpu, fate⟩) ∧
    (∀ pid child, s.children pid = some child →
      child.work < cpunum ∧ s.pool child.work = some pid ∧ 0 < pid) ∧
    (∀ cpu todo, s.ctrl = .scan (cpu :: todo) →
      ∃ pid fate, s.pool cpu = some pid ∧ s.children pid = some ⟨cpu, fate⟩) ∧
    ∀ pid cpu round, s.children pid = some ⟨cpu, some round⟩ →
      s.round ≤ round + 1 ∧ (s.ctrl = .sleep → round = s.round) := by
  obtain ⟨rfl, hwatched⟩ : s.cpunum = cpunum ∧ s.Watched := by
    apply h.invariant (fun s => s.cpunum = cpunum ∧ s.Watched) ⟨rfl, watched_start cpunum⟩
    intro s e t hs _ hstep
    exact ⟨(cpunum_step hstep).trans hs.1, watched_step hs.2 hstep⟩
  refine ⟨?_, ?_, ?_, ?_⟩
  · intro cpu hcpu
    by_cases hmem : cpu ∈ s.myqueue
    · refine Or.inl ⟨hmem, fun pid fate hpid => ?_⟩
      exact (hwatched.queued cpu hcpu).mp hmem pid ((hwatched.tracked cpu pid).mpr ⟨fate, hpid⟩)
    · obtain ⟨pid, hnote⟩ := not_forall_not.mp (mt (hwatched.queued cpu hcpu).mpr hmem)
      refine Or.inr ⟨hmem, pid, (hwatched.tracked cpu pid).mp hnote, ?_⟩
      intro pid' hpid'
      have hnote' := (hwatched.tracked cpu pid').mpr hpid'
      exact Option.some.inj (hnote'.1.symm.trans hnote.1)
  · intro pid child hpid
    obtain ⟨hpool, hpos⟩ := (hwatched.tracked child.work pid).mpr ⟨child.fate, hpid⟩
    exact ⟨hwatched.keys _ _ hpool, hpool, hpos⟩
  · intro cpu todo hctrl
    have htodo := hwatched.todo.2 cpu (by rw [hctrl]; exact List.mem_cons_self)
    obtain ⟨pid, hnote⟩ := not_forall_not.mp (mt (hwatched.queued cpu htodo.1).mpr htodo.2)
    obtain ⟨fate, hpid⟩ := (hwatched.tracked cpu pid).mp hnote
    exact ⟨pid, fate, hnote.1, hpid⟩
  · intro pid cpu round hpid
    obtain ⟨-, hnext, hsame⟩ := hwatched.fates pid cpu round hpid
    refine ⟨hnext, fun hctrl => hsame ?_⟩
    rw [hctrl]
    exact List.not_mem_nil

/-- Two CPUs; the child of the first one ends, and the next one gets its number. -/
def restartEvents : List WatchEvent :=
  [.forked 10, .forked 11, .run, .exits 10, .run, .run, .run, .run, .forked 10, .run]

theorem watch_dog_watches_restart : ∃ s,
    runIf step (fun _ _ => True) (start 2) restartEvents = some s ∧ s.round = 2 ∧
    ∀ cpu < 2, cpu ∉ s.myqueue ∧ ∃! pid, ∃ fate, s.children pid = some ⟨cpu, fate⟩ := by
  have hrun : (runIf step (fun _ _ => True) (start 2) restartEvents).map (fun s =>
      (s.round, s.myqueue)) = some (2, []) := by decide
  obtain ⟨s, hs, hrest⟩ := Option.map_eq_some_iff.mp hrun
  simp only [Prod.mk.injEq] at hrest
  obtain ⟨hround, hqueue⟩ := hrest
  refine ⟨s, hs, hround, fun cpu hcpu => ?_⟩
  rcases (watch_dog_watches 2 s (.of_runIf .init hs)).1 cpu hcpu with ⟨hmem, -⟩ | hone
  · rw [hqueue] at hmem
    cases hmem
  · exact hone

end WatchDog

end MgRaffle.MgServer
