import MgRaffle.Utils.ConnectionPool
import MgRaffle.Utils.Solution

namespace MgRaffle.Utils
open Stepping Waiting

namespace Lease

variable {κ τ γ : Type*}

/-- The connections that calls have returned, in order. -/
def served (s : Lease κ τ γ) : List κ := s.answers.filterMap Answer.connection

/-- Calls are awake for the connections in `_pool`, as long as others wait. -/
def Heeded (s : Lease κ τ γ) : Prop := s.connections.nonEmpty.Heeded s.connections.pool.length

variable [DecidableEq τ] [DecidableEq γ]

section Getting

variable {s : Lease κ τ γ} {w : Getter τ γ} {timedOut : Bool}

/-- From its test of `_pool` on a call takes a connection, or waits where there is none. -/
theorem heeded_getConnection
    (h : s.connections.nonEmpty.Heeded (s.connections.pool.length - 1)) :
    (s.getConnection w timedOut).Heeded := by
  unfold getConnection Heeded
  cases hpool : s.connections.pool with
  | nil =>
    cases timedOut with
    | true =>
      rw [if_pos rfl, receive_connections, hpool]
      exact CondVar.heeded_zero
    | false =>
      show (s.connections.nonEmpty.block w).Heeded s.connections.pool.length
      rw [hpool]
      exact CondVar.heeded_zero
  | cons c rest =>
    rw [hpool] at h
    dsimp only
    rw [receive_connections]
    exact h

theorem served_receive (c : Option κ) : (s.receive w c).served = s.served ++ c.toList := by
  rw [served, receive_answers, List.filterMap_append]
  cases c <;> rfl

/-- What a call has done when it waits again or returns. -/
theorem getConnection_eq (s : Lease κ τ γ) (w : Getter τ γ) (timedOut : Bool) :
    (s.getConnection w timedOut).connections.nonEmpty.woken = s.connections.nonEmpty.woken ∧
    (s.getConnection w timedOut).connections.pool = s.connections.pool.tail ∧
    (s.getConnection w timedOut).served = s.served ++ s.connections.pool.take 1 := by
  unfold getConnection
  cases hpool : s.connections.pool with
  | nil =>
    cases timedOut with
    | true =>
      dsimp only
      rw [if_pos rfl, receive_connections, served_receive, hpool]
      exact ⟨rfl, rfl, rfl⟩
    | false =>
      refine ⟨rfl, hpool, ?_⟩
      rw [List.take_nil, List.append_nil]
      rfl
  | cons c rest =>
    dsimp only
    rw [receive_connections, served_receive]
    exact ⟨rfl, rfl, rfl⟩

end Getting

variable [DecidableEq κ] {s s' : Lease κ τ γ} {e : LeaseEvent κ τ γ} {c : κ}
  {notified : Option (Getter τ γ)} {p : ConnectionPool κ (Getter τ γ)}
  {ws : List (Getter τ γ × Bool)}

omit [DecidableEq κ] in
theorem Heeded.giveBack (h : s.Heeded) (hp : s.connections.giveBack c notified = some p) :
    p.nonEmpty.Heeded p.pool.length := by
  obtain ⟨cv, hcv, rfl⟩ := Option.map_eq_some_iff.mp hp
  rw [List.length_append]
  exact h.notifyOne hcv

theorem heeded_step (h : s.Heeded) (hstep : s.step e = some s') : s'.Heeded := by
  have hless : s.connections.nonEmpty.Heeded (s.connections.pool.length - 1) :=
    h.mono (Nat.sub_le _ _)
  have hwake {w : Getter τ γ} {b : Bool}
      (hw : (s.connections.nonEmpty.wake w b).map s.onCond = some s') : s'.Heeded := by
    obtain ⟨cv, hcv, rfl⟩ := Option.map_eq_some_iff.mp hw
    exact (h.wake hcv).mono (Nat.le_succ _)
  -- a call may come and take a connection without being notified; one that is put back wakes
  -- another call, if one waits
  cases e with
  | addConnection t c notified =>
    simp only [Lease.step] at hstep
    split_ifs at hstep
    obtain ⟨p, hp, rfl⟩ := Option.map_eq_some_iff.mp hstep
    exact h.giveBack hp
  | getConnection t timeout =>
    simp only [Lease.step] at hstep
    split_ifs at hstep
    cases hstep
    exact heeded_getConnection hless
  | giveBack t c notified =>
    simp only [Lease.step] at hstep
    split_ifs at hstep
    obtain ⟨p, hp, rfl⟩ := Option.map_eq_some_iff.mp hstep
    exact h.giveBack hp
  | construct t g hasPool =>
    simp only [Lease.step] at hstep
    split_ifs at hstep
    · cases hstep
      exact heeded_getConnection hless
    · cases hstep
      exact h
  | destroy t g notified =>
    simp only [Lease.step] at hstep
    split_ifs at hstep
    split at hstep
    · cases hstep
    · obtain ⟨p, hp, rfl⟩ := Option.map_eq_some_iff.mp hstep
      exact h.giveBack hp
    · cases hstep
      exact h
  | wake w => exact hwake hstep
  | timeout w =>
    simp only [Lease.step] at hstep
    split_ifs at hstep
    exact hwake hstep
  | expire w =>
    simp only [Lease.step] at hstep
    split_ifs at hstep
    obtain ⟨cv, hcv, rfl⟩ := Option.map_eq_some_iff.mp hstep
    exact h.expire hcv
  | resume w timedOut =>
    obtain ⟨cv, hcv, rfl⟩ := Option.map_eq_some_iff.mp hstep
    exact heeded_getConnection (h.resume hcv)

/-- The calls that are awake get the lock one after another. -/
theorem resume_all (h : s.connections.nonEmpty.woken.Perm ws) :
    ∃ t, runIf step (fun _ _ => True) s (ws.map fun x => .resume x.1 x.2) = some t ∧
      t.connections.nonEmpty.woken = [] ∧
      t.connections.pool = s.connections.pool.drop ws.length ∧
      t.served = s.served ++ s.connections.pool.take ws.length := by
  -- each one takes the front of `_pool`, if there is something
  induction ws generalizing s with
  | nil =>
    refine ⟨s, rfl, h.eq_nil, rfl, ?_⟩
    rw [List.length_nil, List.take_zero, List.append_nil]
  | cons x ws ih =>
    obtain ⟨cv, hcv, hws, -⟩ := CondVar.resume_of_perm h
    obtain ⟨hwoken, hpool, hserved⟩ := getConnection_eq (s.onCond cv) x.1 x.2
    have hstep : s.step (.resume x.1 x.2) = some ((s.onCond cv).getConnection x.1 x.2) := by
      rw [step, hcv]
      rfl
    obtain ⟨t, hrun, hnil, hdrop, htake⟩ := ih (hwoken ▸ hws)
    refine ⟨t, ?_, hnil, ?_, ?_⟩
    · rw [List.map_cons, runIf, if_pos trivial, hstep]
      exact hrun
    · rw [hdrop, hpool, List.drop_tail]
      rfl
    · rw [htake, hpool, hserved, List.append_assoc]
      show s.served ++ (s.connections.pool.take 1 ++ s.connections.pool.tail.take ws.length) = _
      cases s.connections.pool <;> simp

/-- No wake-up is lost. While calls wait, as many are awake as connections are in `_pool`; and in
whichever order these get the lock, the connections go to blocked calls, one to each, until there is
no connection left or nobody waits. -/
theorem wakeups_kept (h : Reachable step (fun _ _ => True) (start : Lease κ τ γ) s) :
    (s.connections.nonEmpty.waiting ≠ [] →
      s.connections.pool.length ≤ s.connections.nonEmpty.woken.length) ∧
    ∀ ws, s.connections.nonEmpty.woken.Perm ws →
      ∃ t, runIf step (fun _ _ => True) s (ws.map fun x => .resume x.1 x.2) = some t ∧
        t.served = s.served ++ s.connections.pool.take s.calls.length ∧
        (t.connections.pool = [] ∨ t.calls = []) := by
  have hheeded (u : Lease κ τ γ) (hu : Reachable step (fun _ _ => True) start u) : u.Heeded := by
    apply Reachable.invariant Heeded _ _ hu
    · exact CondVar.heeded_zero
    · intro s e s' hs _ hstep
      exact heeded_step hs hstep
  refine ⟨hheeded s h, fun ws hws => ?_⟩
  obtain ⟨t, hrun, hnil, -, hserved⟩ := resume_all hws
  refine ⟨t, hrun, ?_, ?_⟩
  · -- where calls still wait there are no more connections than calls awake
    have hcalls : s.calls.length =
        s.connections.nonEmpty.waiting.length + s.connections.nonEmpty.woken.length := by
      rw [calls, CondVar.calls, List.length_append, List.length_map]
    rw [hserved, ← hws.length_eq]
    by_cases hwait : s.connections.nonEmpty.waiting = []
    · rw [hcalls, hwait, List.length_nil, Nat.zero_add]
    · have hle := hheeded s h hwait
      rw [List.take_of_length_le hle, List.take_of_length_le (by omega)]
  · have ht := hheeded t (h.of_runIf hrun)
    exact (ht.settled hnil).imp_left List.length_eq_zero_iff.mp

/-- Three callers wait, one of them is notified of a connection, and it is the one that gets it. -/
theorem wakeups_kept_three : ∃ s t : Lease (Fin 1) (Fin 4) (Fin 1),
    runIf step (fun _ _ => True) start [.getConnection 1 0, .getConnection 2 5, .getConnection 3 0,
      .addConnection 0 0 (some ⟨2, none, 5⟩), .expire ⟨2, none, 5⟩] = some s ∧
    s.connections.nonEmpty.waiting = [⟨1, none, 0⟩, ⟨3, none, 0⟩] ∧
    runIf step (fun _ _ => True) s [.resume ⟨2, none, 5⟩ true] = some t ∧ t.served = [0] := by
  obtain ⟨s, hs, hwaiting, hwoken, hpool, hserved⟩ : ∃ s : Lease (Fin 1) (Fin 4) (Fin 1),
      runIf step (fun _ _ => True) start [.getConnection 1 0, .getConnection 2 5,
        .getConnection 3 0, .addConnection 0 0 (some ⟨2, none, 5⟩), .expire ⟨2, none, 5⟩] = some s ∧
      s.connections.nonEmpty.waiting = [⟨1, none, 0⟩, ⟨3, none, 0⟩] ∧
      s.connections.nonEmpty.woken = [(⟨2, none, 5⟩, true)] ∧ s.connections.pool = [0] ∧
      s.served = [] := ⟨_, rfl, rfl, rfl, rfl, rfl⟩
  obtain ⟨t, ht, htake, -⟩ := (wakeups_kept (.of_runIf .init hs)).2 _ (.of_eq hwoken)
  refine ⟨s, t, hs, hwaiting, ht, ?_⟩
  rw [htake, hserved, hpool, calls, CondVar.calls, hwaiting, hwoken]
  rfl

end Lease

namespace Exchange

variable {α τ : Type*}

/-- Consumers are awake for the values in `_data`, as long as others wait, and none of them comes
back for lack of time. -/
structure Heeded (s : Exchange α τ) : Prop where
  values : s.queue.cond.Heeded s.queue.data.length
  timely : ∀ x ∈ s.queue.cond.woken, x.2 = false

variable [DecidableEq τ] {s s' : Exchange α τ} {t : τ} {e : QueueEvent α τ} {cv : CondVar τ}
  {ts : List τ}

omit [DecidableEq τ] in
theorem heeded_takeFront (h : s.queue.cond.Heeded (s.queue.data.length - 1))
    (htimely : ∀ x ∈ s.queue.cond.woken, x.2 = false) : (s.takeFront t).Heeded := by
  unfold takeFront
  cases hdata : s.queue.data with
  | nil =>
    refine ⟨?_, htimely⟩
    show s.queue.cond.Heeded s.queue.data.length
    rw [hdata]
    exact CondVar.heeded_zero
  | cons v rest =>
    rw [hdata] at h
    exact ⟨h, htimely⟩

theorem heeded_turn (h : s.Heeded) (hturn : s.turn e = some s') : s'.Heeded := by
  cases e with
  | put t v notified =>
    simp only [turn] at hturn
    split_ifs at hturn
    obtain ⟨cv, hcv, rfl⟩ := Option.map_eq_some_iff.mp hturn
    refine ⟨?_, fun x hx => ?_⟩
    · show cv.Heeded (s.queue.data ++ [v]).length
      rw [List.length_append]
      exact h.values.notifyOne hcv
    · exact (CondVar.mem_woken_notifyOne hcv hx).elim id (h.timely x)
  | get t =>
    simp only [turn] at hturn
    split_ifs at hturn with _ hempty
    · cases hturn
      refine ⟨?_, h.timely⟩
      show (s.queue.cond.block t).Heeded s.queue.data.length
      rw [List.isEmpty_iff.mp hempty]
      exact CondVar.heeded_zero
    · cases hturn
      exact heeded_takeFront (h.values.mono (Nat.sub_le _ _)) h.timely
  | wake t =>
    obtain ⟨cv, hcv, rfl⟩ := Option.map_eq_some_iff.mp hturn
    refine ⟨(h.values.wake hcv).mono (Nat.le_succ _), fun x hx => ?_⟩
    rcases CondVar.mem_woken_wake hcv hx with rfl | hx
    · rfl
    · exact h.timely x hx
  | resume t =>
    obtain ⟨cv, hcv, rfl⟩ := Option.map_eq_some_iff.mp hturn
    refine heeded_takeFront (s := s.onCond cv) (h.values.resume hcv) fun x hx => ?_
    exact h.timely x (CondVar.mem_woken_resume hcv hx)

theorem heeded (h : Reachable step (fun _ _ => True) start s) : s.Heeded := by
  apply Reachable.invariant Heeded _ _ h
  · exact ⟨CondVar.heeded_zero, fun _ hx => absurd hx List.not_mem_nil⟩
  · intro s e s' hs _ hstep
    unfold step at hstep
    split_ifs at hstep
    exact heeded_turn hs hstep

/-- The consumers that are awake get the lock one after another. -/
theorem resume_all (hunder : s.underflow = false)
    (h : s.queue.cond.woken.Perm (ts.map fun t => (t, false)))
    (hle : ts.length ≤ s.queue.data.length) :
    ∃ s', runIf step (fun _ _ => True) s (ts.map .resume) = some s' ∧ s'.underflow = false ∧
      s'.queue.cond.woken = [] ∧
      s'.taken.map Prod.snd = s.taken.map Prod.snd ++ s.queue.data.take ts.length := by
  induction ts generalizing s with
  | nil =>
    refine ⟨s, rfl, hunder, h.eq_nil, ?_⟩
    rw [List.length_nil, List.take_zero, List.append_nil]
  | cons t ts ih =>
    obtain ⟨cv, hcv, hws, -⟩ := CondVar.resume_of_perm h
    cases hdata : s.queue.data with
    | nil =>
      rw [hdata] at hle
      exact absurd hle (Nat.not_succ_le_zero _)
    | cons v rest =>
      have hdata' : (s.onCond cv).queue.data = v :: rest := hdata
      have hstep : s.step (.resume t) = some ((s.onCond cv).takeFront t) := by
        rw [step, hunder, if_neg Bool.false_ne_true, turn, hcv]
        rfl
      rw [takeFront_cons hdata'] at hstep
      rw [hdata, List.length_cons, List.length_cons, Nat.succ_le_succ_iff] at hle
      obtain ⟨s', hrun, hunder', hnil, htaken⟩ :=
        ih (s := { s with queue := ⟨rest, cv⟩, taken := s.taken ++ [(t, v)] }) hunder hws hle
      refine ⟨s', ?_, hunder', hnil, ?_⟩
      · rw [List.map_cons, runIf, if_pos trivial, hstep]
        exact hrun
      · rw [htaken]
        simp

/-- While consumers wait, as many are awake as values are in `_data`. If no more are awake than there
are values, they may get the lock in any order: each takes a value, and after that no value is left or
no consumer waits. -/
theorem consumers_supplied (h : Reachable step (fun _ _ => True) (start : Exchange α τ) s)
    (hunder : s.underflow = false) :
    (s.queue.cond.waiting ≠ [] → s.queue.data.length ≤ s.queue.cond.woken.length) ∧
    ∀ ts, (s.queue.cond.woken.map Prod.fst).Perm ts → ts.length ≤ s.queue.data.length →
      ∃ s', runIf step (fun _ _ => True) s (ts.map .resume) = some s' ∧ s'.underflow = false ∧
        s'.taken.map Prod.snd = s.taken.map Prod.snd ++ s.queue.data.take ts.length ∧
        (s'.queue.data = [] ∨ s'.queue.cond.calls = []) := by
  refine ⟨(heeded h).values, fun ts hts hle => ?_⟩
  have hwoken : s.queue.cond.woken.Perm (ts.map fun t => (t, false)) := by
    have hmap := hts.map fun t => (t, false)
    rw [List.map_map] at hmap
    have hid : s.queue.cond.woken.map ((fun t => (t, false)) ∘ Prod.fst) = s.queue.cond.woken := by
      conv_rhs => rw [← List.map_id s.queue.cond.woken]
      apply List.map_congr_left
      intro x hx
      exact Prod.ext rfl ((heeded h).timely x hx).symm
    rwa [hid] at hmap
  obtain ⟨s', hrun, hunder', hnil, htaken⟩ := resume_all hunder hwoken hle
  refine ⟨s', hrun, hunder', htaken, ?_⟩
  have hs' := (heeded (h.of_runIf hrun)).values
  exact (hs'.settled hnil).imp_left List.length_eq_zero_iff.mp

/-- Two consumers wait, both are notified, and the later one gets the lock first. -/
theorem consumers_supplied_two : ∃ s s' : Exchange ℕ (Fin 3),
    runIf step (fun _ _ => True) start
      [.get 1, .get 2, .put 0 7 (some 1), .put 0 8 (some 2)] = some s ∧
    runIf step (fun _ _ => True) s [.resume 2, .resume 1] = some s' ∧
    s'.taken.map Prod.snd = [7, 8] := by
  obtain ⟨s, hs, hunder, hwoken, hdata, htaken⟩ : ∃ s : Exchange ℕ (Fin 3),
      runIf step (fun _ _ => True) start
        [.get 1, .get 2, .put 0 7 (some 1), .put 0 8 (some 2)] = some s ∧
      s.underflow = false ∧ s.queue.cond.woken.map Prod.fst = [2, 1] ∧ s.queue.data = [7, 8] ∧
      s.taken = [] := ⟨_, rfl, rfl, rfl, rfl, rfl⟩
  obtain ⟨s', hs', -, htake, -⟩ :=
    (consumers_supplied (.of_runIf .init hs) hunder).2 [2, 1] (.of_eq hwoken) (by rw [hdata]; rfl)
  refine ⟨s, s', hs, hs', ?_⟩
  rw [htake, htaken, hdata]
  rfl

end Exchange

end MgRaffle.Utils
