import MgRaffle.Library.CondVar
import MgRaffle.Library.Stepping

namespace MgRaffle.Utils
open Stepping Waiting

/-- `Solution<T>` between the steps that hold `_mutex`; on `_cond` there are threads. -/
structure Solution (α τ : Type*) where
  data : List α
  cond : CondVar τ
  deriving Repr, DecidableEq

/-- The queue with what has been put, what the calls of `get` have taken from `_data`, and whether
one of them has taken `front()` of an empty queue, which has no defined behaviour. What a caller
receives is not here: `get` returns a reference to a local variable. -/
structure Exchange (α τ : Type*) where
  queue : Solution α τ
  put : List α
  taken : List (τ × α)
  underflow : Bool
  deriving Repr, DecidableEq

/-- A step that holds the lock, or a wait that ends by itself. -/
inductive QueueEvent (α τ : Type*)
  | put (t : τ) (v : α) (notified : Option τ)
  | get (t : τ)
  | wake (t : τ)
  | resume (t : τ)
  deriving Repr, DecidableEq

namespace Exchange

variable {α τ : Type*}

def start : Exchange α τ := ⟨⟨[], .new⟩, [], [], false⟩

/-- `front()` and `pop_front()`. -/
def takeFront (s : Exchange α τ) (t : τ) : Exchange α τ :=
  match s.queue.data with
  | [] => { s with underflow := true }
  | v :: rest => { s with queue := ⟨rest, s.queue.cond⟩, taken := s.taken ++ [(t, v)] }

def onCond (s : Exchange α τ) (cv : CondVar τ) : Exchange α τ :=
  { s with queue := ⟨s.queue.data, cv⟩ }

variable [DecidableEq τ]

/-- `none` where the event cannot happen: a thread that is blocked makes no call. -/
def turn (s : Exchange α τ) : QueueEvent α τ → Option (Exchange α τ)
  | .put t v notified =>
    if t ∈ s.queue.cond.calls then none
    else (s.queue.cond.notifyOne notified).map fun cv =>
      { s with queue := ⟨s.queue.data ++ [v], cv⟩, put := s.put ++ [v] }
  | .get t =>
    if t ∈ s.queue.cond.calls then none
    else if s.queue.data.isEmpty then some (s.onCond (s.queue.cond.block t))
    else some (s.takeFront t)
  | .wake t => (s.queue.cond.wake t false).map s.onCond
  | .resume t => (s.queue.cond.resume t false).map fun cv => (s.onCond cv).takeFront t

/-- Nothing is said about a run once it has no defined behaviour. -/
def step (s : Exchange α τ) (e : QueueEvent α τ) : Option (Exchange α τ) :=
  if s.underflow then none else s.turn e

/-- A thread that has waited finds the queue filled. -/
def Supplied (s : Exchange α τ) : QueueEvent α τ → Prop
  | .resume _ => s.queue.data ≠ []
  | _ => True

instance (s : Exchange α τ) (e : QueueEvent α τ) [DecidableEq α] : Decidable (s.Supplied e) := by
  cases e <;> unfold Supplied <;> infer_instance

/-- Everything that a step can do. -/
inductive Stepped (s : Exchange α τ) : QueueEvent α τ → Exchange α τ → Prop
  | put {t : τ} {v : α} {notified : Option τ} {cv : CondVar τ} :
      Stepped s (.put t v notified) { s with queue := ⟨s.queue.data ++ [v], cv⟩, put := s.put ++ [v] }
  | wait {e : QueueEvent α τ} {cv : CondVar τ} (he : ∀ t, e ≠ .resume t) : Stepped s e (s.onCond cv)
  | get {t : τ} (hdata : s.queue.data ≠ []) : Stepped s (.get t) (s.takeFront t)
  | resume {t : τ} {cv : CondVar τ} : Stepped s (.resume t) ((s.onCond cv).takeFront t)

omit [DecidableEq τ] in
/-- Nothing is taken from an empty queue; the values are taken in the order in which they were put,
each in one call. -/
def Fifo (s : Exchange α τ) : Prop := s.underflow = false ∧ s.taken.map Prod.snd <+: s.put

/-- What has been put has been taken or is in the queue. -/
def Delivered (s : Exchange α τ) : Prop := s.taken.map Prod.snd ++ s.queue.data = s.put

variable {s s' : Exchange α τ} {t : τ} {e : QueueEvent α τ}

omit [DecidableEq τ] in
theorem takeFront_cons {v : α} {rest : List α} (h : s.queue.data = v :: rest) :
    s.takeFront t = { s with queue := ⟨rest, s.queue.cond⟩, taken := s.taken ++ [(t, v)] } := by
  unfold takeFront
  rw [h]

omit [DecidableEq τ] in
theorem delivered_takeFront (h : s.Delivered) : (s.takeFront t).Delivered := by
  cases hd : s.queue.data with
  | nil =>
    unfold takeFront
    rw [hd]
    exact h
  | cons v rest =>
    unfold Delivered at h
    rw [takeFront_cons hd]
    rw [hd] at h
    simpa only [Delivered, List.map_append, List.map_cons, List.map_nil, List.append_assoc,
      List.singleton_append] using h

theorem stepped_of_step (h : s.step e = some s') : s.underflow = false ∧ Stepped s e s' := by
  unfold step at h
  split_ifs at h with hunder
  refine ⟨by simpa using hunder, ?_⟩
  cases e with
  | put t v notified =>
    simp only [turn] at h
    split_ifs at h
    obtain ⟨cv, -, heq⟩ := Option.map_eq_some_iff.mp h
    rw [← heq]
    exact .put
  | get t =>
    simp only [turn] at h
    split_ifs at h with _ hempty
    · rw [Option.some.injEq] at h
      rw [← h]
      exact .wait nofun
    · rw [Option.some.injEq] at h
      rw [← h]
      exact .get (by simpa using hempty)
  | wake t =>
    obtain ⟨cv, -, heq⟩ := Option.map_eq_some_iff.mp h
    rw [← heq]
    exact .wait nofun
  | resume t =>
    obtain ⟨cv, -, heq⟩ := Option.map_eq_some_iff.mp h
    rw [← heq]
    exact .resume

omit [DecidableEq τ] in
theorem delivered_step (h : s.Delivered) (hstep : Stepped s e s') : s'.Delivered := by
  cases hstep with
  | put =>
    unfold Delivered at h ⊢
    rw [← h, List.append_assoc]
  | wait => exact h
  | get => exact delivered_takeFront h
  | resume => exact delivered_takeFront h

omit [DecidableEq τ] in
theorem underflow_takeFront : (s.takeFront t).underflow = false ↔
    s.underflow = false ∧ s.queue.data ≠ [] := by
  unfold takeFront
  cases s.queue.data <;> simp

omit [DecidableEq τ] in
/-- A step is harmless exactly if a thread that comes out of its wait is supplied. -/
theorem underflow_step (h : s.underflow = false) (hstep : Stepped s e s') :
    s'.underflow = false ↔ s.Supplied e := by
  cases hstep with
  | put => exact iff_of_true h trivial
  | wait he =>
    apply iff_of_true h
    cases e with
    | resume t => exact absurd rfl (he t)
    | _ => trivial
  | get hdata =>
    rw [underflow_takeFront]
    exact iff_of_true ⟨h, hdata⟩ trivial
  | resume =>
    rw [underflow_takeFront]
    exact and_iff_right h

/-- A run behaves as a queue up to the first thread that comes out of its wait to an empty one. -/
theorem fifo_iff_supplied (h : Reachable step (fun _ _ => True) (start : Exchange α τ) s) :
    s.Fifo ↔ Reachable step Supplied start s := by
  have hdel : s.Delivered := by
    apply Reachable.invariant Delivered _ _ h
    · exact List.nil_append _
    intro s e t hs _ hstep
    exact delivered_step hs (stepped_of_step hstep).2
  constructor
  · intro hfifo
    have hunder := hfifo.1
    clear hfifo hdel
    induction h with
    | init => exact .init
    | step _ _ hstep ih =>
      obtain ⟨hbefore, hstepped⟩ := stepped_of_step hstep
      exact .step (ih hbefore) ((underflow_step hbefore hstepped).mp hunder) hstep
  · intro hrun
    refine ⟨?_, s.queue.data, hdel⟩
    cases hrun with
    | init => rfl
    | step _ hc hstep =>
      obtain ⟨hbefore, hstepped⟩ := stepped_of_step hstep
      exact (underflow_step hbefore hstepped).mpr hc

/-- Two consumers wait; one is woken for no reason, and both are supplied. -/
theorem fifo_iff_supplied_two : ∃ s, runIf step (fun _ _ => True) (start : Exchange ℕ (Fin 3))
    [.get 1, .get 2, .put 0 7 (some 2), .wake 1, .put 0 8 none, .resume 2, .resume 1] = some s ∧
    s.Fifo ∧ Reachable step Supplied start s := by
  obtain ⟨s, hs⟩ : ∃ s, runIf step (fun _ _ => True) (start : Exchange ℕ (Fin 3))
      [.get 1, .get 2, .put 0 7 (some 2), .wake 1, .put 0 8 none, .resume 2, .resume 1] = some s :=
    ⟨_, rfl⟩
  have hrun : Reachable step (fun _ _ => True) start s := .of_runIf .init hs
  have hfifo : s.Fifo := by
    cases hs
    exact ⟨rfl, ⟨[], rfl⟩⟩
  exact ⟨s, hs, hfifo, (fifo_iff_supplied hrun).mp hfifo⟩

/-- A third thread takes the value before the one that was notified of it has the lock back. -/
theorem third_thread_steals : ¬ ∀ s : Exchange ℕ (Fin 3),
    Reachable step (fun _ _ => True) start s → s.Fifo := by
  intro h
  obtain ⟨s, hs⟩ : ∃ s, runIf step (fun _ _ => True) (start : Exchange ℕ (Fin 3))
      [.get 1, .put 0 7 (some 1), .get 2, .resume 1] = some s := ⟨_, rfl⟩
  have hunder := (h s (.of_runIf .init hs)).1
  cases hs
  cases hunder

end Exchange

end MgRaffle.Utils
