import Mathlib.Logic.Function.Basic
import MgRaffle.Library.Looping
import MgRaffle.Library.Stepping

namespace SpinLock
open Looping Stepping

/-- The code of calls that run under a lock: a turn works on the local state of its call and on
what the calls share, and yields the result with the last turn. There is no turn where the
environment would not answer in that way. -/
structure Body (κ lo ρ σ : Type*) where
  start : κ → lo
  turn : lo → σ → Option ((lo ⊕ ρ) × σ)

/-- Where a thread stands: at `test_and_set`, in the body of its call, or at `clear`. -/
inductive Thread (κ lo ρ : Type*)
  | outside
  | locking (call : κ)
  | inside (call : κ) (pos : lo)
  | leaving (call : κ) (result : ρ)

/-- The thread has come through `test_and_set` and has yet to `clear` the flag. -/
def Thread.Holds {κ lo ρ : Type*} : Thread κ lo ρ → Prop
  | .inside _ _ | .leaving _ _ => True
  | _ => False

/-- The threads, the flag and what they share, and the calls that have gone through, in order. -/
structure System (ι κ lo ρ σ : Type*) where
  flag : Bool
  threads : ι → Thread κ lo ρ
  shared : σ
  log : List (ι × κ × ρ)

inductive Event (ι κ : Type*)
  | call (i : ι) (call : κ)
  | testAndSet (i : ι)
  | turn (i : ι)
  | clear (i : ι)

variable {ι κ lo ρ σ : Type*}

namespace Body

variable (B : Body κ lo ρ σ)

/-- The turns that a call has made so far. -/
def Going : lo × σ → lo × σ → Prop :=
  Relation.ReflTransGen fun a b => B.turn a.1 a.2 = some (.inl b.1, b.2)

/-- A whole call, with nothing in between. -/
def Runs (call : κ) (s : σ) (result : ρ) (t : σ) : Prop :=
  ∃ p u, B.Going (B.start call, s) (p, u) ∧ B.turn p u = some (.inr result, t)

/-- Whole calls, one after another. -/
inductive Serial (init : σ) : List (ι × κ × ρ) → σ → Prop
  | nil : Serial init [] init
  | concat {log : List (ι × κ × ρ)} {s t : σ} {i : ι} {call : κ} {result : ρ}
      (h : Serial init log s) (hrun : B.Runs call s result t) :
      Serial init (log ++ [(i, call, result)]) t

variable {B : Body κ lo ρ σ} {call : κ} {s t : σ} {result : ρ}

/-- What every turn but the last one keeps. -/
theorem Going.keep {a b : lo × σ} (Inv : lo → σ → Prop)
    (hinl : ∀ p u q v, Inv p u → B.turn p u = some (.inl q, v) → Inv q v) (ha : Inv a.1 a.2)
    (h : B.Going a b) : Inv b.1 b.2 := by
  induction h with
  | refl => exact ha
  | tail _ hturn ih => exact hinl _ _ _ _ ih hturn

/-- What every turn keeps of a call, its last turn ends with. -/
theorem Runs.post (Inv : lo → σ → Prop) (Post : ρ → σ → Prop)
    (hinl : ∀ p u q v, Inv p u → B.turn p u = some (.inl q, v) → Inv q v)
    (hinr : ∀ p u r v, Inv p u → B.turn p u = some (.inr r, v) → Post r v)
    (hs : Inv (B.start call) s) (h : B.Runs call s result t) : Post result t := by
  obtain ⟨p, u, hgoing, hlast⟩ := h
  exact hinr p u _ _ (hgoing.keep Inv hinl hs) hlast

section Whole

variable (B) in
/-- A call as a loop of its turns. -/
def whole (x : lo × σ) : Option ((lo × σ) ⊕ (ρ × σ)) :=
  (B.turn x.1 x.2).map fun
    | (.inl p, u) => .inl (p, u)
    | (.inr r, u) => .inr (r, u)

variable {a b : lo × σ} {n : ℕ} {r : ρ × σ}

theorem whole_inl (h : B.turn a.1 a.2 = some (.inl b.1, b.2)) : B.whole a = some (.inl b) := by
  rw [whole, h]
  rfl

theorem whole_inr (h : B.turn a.1 a.2 = some (.inr result, t)) :
    B.whole a = some (.inr (result, t)) := by
  rw [whole, h]
  rfl

theorem Going.loops (h : B.Going a b) (hb : loop B.whole n b = some r) :
    ∃ m, loop B.whole m a = some r := by
  induction h using Relation.ReflTransGen.head_induction_on with
  | refl => exact ⟨n, hb⟩
  | head hturn _ ih =>
    obtain ⟨m, hm⟩ := ih
    exact ⟨m + 1, (loop_inl (whole_inl hturn)).trans hm⟩

/-- A call that comes to its end does so from wherever it stands. -/
theorem Going.rest (h : B.Going a b) (ha : loop B.whole n a = some r) :
    ∃ m, loop B.whole m b = some r := by
  induction h with
  | refl => exact ⟨n, ha⟩
  | tail _ hturn ih =>
    obtain ⟨m, hm⟩ := ih
    cases m with
    | zero => cases hm
    | succ m => exact ⟨m, (loop_inl (whole_inl hturn)).symm.trans hm⟩

theorem Runs.loops (h : B.Runs call s result t) :
    ∃ n, loop B.whole n (B.start call, s) = some (result, t) := by
  obtain ⟨p, u, hgoing, hlast⟩ := h
  exact hgoing.loops (n := 1) (loop_inr (whole_inr hlast))

end Whole

end Body

namespace System

def init (shared : σ) : System ι κ lo ρ σ := ⟨false, fun _ => .outside, shared, []⟩

variable [DecidableEq ι]

def goto (s : System ι κ lo ρ σ) (i : ι) (t : Thread κ lo ρ) : System ι κ lo ρ σ :=
  { s with threads := Function.update s.threads i t }

/-- One step of one thread, between any steps of the others. -/
def step (B : Body κ lo ρ σ) (s : System ι κ lo ρ σ) : Event ι κ → Option (System ι κ lo ρ σ)
  | .call i call =>
    match s.threads i with
    | .outside => some (s.goto i (.locking call))
    | _ => none
  | .testAndSet i =>
    match s.threads i with
    | .locking call =>
      -- the loop of `lock` goes on while the flag was set
      some (if s.flag then s else { s with flag := true }.goto i (.inside call (B.start call)))
    | _ => none
  | .turn i =>
    match s.threads i with
    | .inside call pos =>
      (B.turn pos s.shared).map fun
      | (.inl pos', shared) => { s with shared := shared }.goto i (.inside call pos')
      | (.inr result, shared) =>
        { s with shared := shared, log := s.log ++ [(i, call, result)] }.goto i (.leaving call result)
    | _ => none
  | .clear i =>
    match s.threads i with
    | .leaving _ _ => some ({ s with flag := false }.goto i .outside)
    | _ => none

/-- Everything that a step can do. -/
inductive Stepped (B : Body κ lo ρ σ) (s : System ι κ lo ρ σ) : System ι κ lo ρ σ → Prop
  | call {i : ι} {call : κ} (h : s.threads i = .outside) : Stepped B s (s.goto i (.locking call))
  | spin : Stepped B s s
  | acquire {i : ι} {call : κ} (h : s.threads i = .locking call) (hflag : s.flag = false) :
      Stepped B s ({ s with flag := true }.goto i (.inside call (B.start call)))
  | turn {i : ι} {call : κ} {p q : lo} {u : σ} (h : s.threads i = .inside call p)
      (hturn : B.turn p s.shared = some (.inl q, u)) :
      Stepped B s ({ s with shared := u }.goto i (.inside call q))
  | finish {i : ι} {call : κ} {p : lo} {result : ρ} {u : σ} (h : s.threads i = .inside call p)
      (hturn : B.turn p s.shared = some (.inr result, u)) :
      Stepped B s ({ s with shared := u, log := s.log ++ [(i, call, result)] }.goto i
        (.leaving call result))
  | clear {i : ι} {call : κ} {result : ρ} (h : s.threads i = .leaving call result) :
      Stepped B s ({ s with flag := false }.goto i .outside)

section Inversion

variable {B : Body κ lo ρ σ} {s t : System ι κ lo ρ σ}

theorem stepped_of_step {e : Event ι κ} (h : s.step B e = some t) : s.Stepped B t := by
  unfold step at h
  split at h
  · split at h <;> cases h
    exact .call ‹_›
  · split at h
    · split_ifs at h with hflag <;> cases h
      · exact .spin
      · exact .acquire ‹_› (by simpa using hflag)
    · cases h
  · split at h
    · obtain ⟨⟨r, u⟩, hr, ht⟩ := Option.map_eq_some_iff.mp h
      cases r with
      | inl q =>
        cases ht
        exact .turn ‹_› hr
      | inr result =>
        cases ht
        exact .finish ‹_› hr
    · cases h
  · split at h <;> cases h
    exact .clear ‹_›

end Inversion

/-- At most one thread holds the lock, and the flag says whether one does; the calls that have
gone through are whole calls, one after another, and what is shared is what they have left, but
for what the thread inside has done to it. -/
structure Guarded (B : Body κ lo ρ σ) (init : σ) (s : System ι κ lo ρ σ) : Prop where
  exclusive : ∀ i j, (s.threads i).Holds → (s.threads j).Holds → i = j
  flag : s.flag = true ↔ ∃ i, (s.threads i).Holds
  serial : ∃ u, B.Serial init s.log u ∧
    (s.shared = u ∨ ∃ i call p, s.threads i = .inside call p) ∧
    ∀ i call p, s.threads i = .inside call p → B.Going (B.start call, u) (p, s.shared)

section Guarding

variable {B : Body κ lo ρ σ} {init : σ} {s t : System ι κ lo ρ σ} {i : ι} {th : Thread κ lo ρ}

@[simp] theorem goto_self : (s.goto i th).threads i = th := Function.update_self ..

theorem goto_of_ne {j : ι} (h : j ≠ i) : (s.goto i th).threads j = s.threads j :=
  Function.update_of_ne h ..

omit [DecidableEq ι] in
theorem guarded_init (B : Body κ lo ρ σ) (shared : σ) :
    Guarded B shared (.init shared : System ι κ lo ρ σ) where
  exclusive _ _ h := h.elim
  flag := by simp [System.init, Thread.Holds]
  serial := ⟨shared, .nil, Or.inl rfl, fun _ _ _ h => by cases h⟩

/-- A thread that moves without coming to hold the lock or to let it go. -/
theorem Guarded.move (h : Guarded B init s) (hi : ¬ (s.threads i).Holds) (hth : ¬ th.Holds) :
    Guarded B init (s.goto i th) := by
  have hholds : ∀ j, ((s.goto i th).threads j).Holds ↔ (s.threads j).Holds := by
    intro j
    by_cases hj : j = i
    · subst hj
      rw [goto_self]
      exact iff_of_false hth hi
    · rw [goto_of_ne hj]
  have hinside : ∀ j call p, (s.goto i th).threads j = .inside call p ↔
      s.threads j = .inside call p := by
    intro j call p
    by_cases hj : j = i
    · subst hj
      rw [goto_self]
      constructor <;> intro heq
      · exact absurd (heq ▸ trivial) hth
      · exact absurd (heq ▸ trivial) hi
    · rw [goto_of_ne hj]
  obtain ⟨u, hlog, hu, hgoing⟩ := h.serial
  refine ⟨fun j k hj hk => h.exclusive j k ((hholds j).mp hj) ((hholds k).mp hk), ?_, u, hlog, ?_, ?_⟩
  · simp only [hholds]
    exact h.flag
  · simp only [hinside]
    exact hu
  · simp only [hinside]
    exact hgoing

/-- A step of the thread that holds the lock, or comes to hold it. -/
theorem guarded_of_holder (hothers : ∀ j, j ≠ i → ¬ (s.threads j).Holds) (hth : th.Holds)
    (hflag : s.flag = true) {u : σ} (hlog : B.Serial init s.log u)
    (hu : s.shared = u ∨ ∃ call p, th = .inside call p)
    (hgoing : ∀ call p, th = .inside call p → B.Going (B.start call, u) (p, s.shared)) :
    Guarded B init (s.goto i th) := by
  have honly : ∀ j, ((s.goto i th).threads j).Holds → j = i := by
    intro j hj
    by_contra hne
    rw [goto_of_ne hne] at hj
    exact hothers j hne hj
  refine ⟨fun j k hj hk => (honly j hj).trans (honly k hk).symm, ?_, u, hlog, ?_, ?_⟩
  · exact iff_of_true hflag ⟨i, by rwa [goto_self]⟩
  · exact hu.imp_right fun ⟨call, p, heq⟩ => ⟨i, call, p, by rw [goto_self, heq]⟩
  · intro j call p hj
    obtain rfl := honly j (hj ▸ trivial)
    rw [goto_self] at hj
    exact hgoing call p hj

omit [DecidableEq ι] in
theorem Guarded.others (h : Guarded B init s) (hi : (s.threads i).Holds) :
    ∀ j, j ≠ i → ¬ (s.threads j).Holds := fun j hj hold => hj (h.exclusive j i hold hi)

theorem Guarded.step (h : Guarded B init s) (hstep : s.Stepped B t) : Guarded B init t := by
  obtain ⟨u, hlog, hu, hgoing⟩ := h.serial
  cases hstep with
  | call hi => exact h.move (by rw [hi]; exact id) id
  | spin => exact h
  | @acquire i call hi hflag =>
    -- the flag was free, and so nobody is inside
    have hnone : ∀ j, ¬ (s.threads j).Holds := by
      intro j hj
      have := h.flag.mpr ⟨j, hj⟩
      rw [hflag] at this
      cases this
    have hshared : s.shared = u :=
      hu.resolve_right fun ⟨j, _, _, hj⟩ => hnone j (hj ▸ trivial)
    refine guarded_of_holder (fun j _ => hnone j) trivial rfl hlog (Or.inl hshared) ?_
    rintro _ _ ⟨⟩
    rw [← hshared]
    exact .refl
  | @turn i call p q v hi hturn =>
    have hold : (s.threads i).Holds := hi ▸ trivial
    refine guarded_of_holder (h.others hold) trivial (h.flag.mpr ⟨i, hold⟩) hlog
      (Or.inr ⟨_, _, rfl⟩) ?_
    rintro _ _ ⟨⟩
    exact (hgoing i call p hi).tail hturn
  | @finish i call p result v hi hturn =>
    have hold : (s.threads i).Holds := hi ▸ trivial
    exact guarded_of_holder (h.others hold) trivial (h.flag.mpr ⟨i, hold⟩)
      (hlog.concat ⟨p, s.shared, hgoing i call p hi, hturn⟩) (Or.inl rfl) (fun _ _ h => by cases h)
  | @clear i call result hi =>
    have hold : (s.threads i).Holds := hi ▸ trivial
    have hnone : ∀ j, ¬ ((({ s with flag := false } : System ι κ lo ρ σ).goto i
        .outside).threads j).Holds := by
      intro j hj
      by_cases hji : j = i
      · subst hji
        rw [goto_self] at hj
        exact hj
      · rw [goto_of_ne hji] at hj
        exact h.others hold j hji hj
    -- the holder has done its last turn, and nobody else is inside
    have hshared : s.shared = u := by
      refine hu.resolve_right fun ⟨j, call', p, hj⟩ => ?_
      obtain rfl := h.exclusive j i (hj ▸ trivial) hold
      rw [hi] at hj
      cases hj
    refine ⟨fun j _ hj => absurd hj (hnone j), ?_, u, hlog, Or.inl hshared, ?_⟩
    · exact iff_of_false Bool.false_ne_true fun ⟨j, hj⟩ => hnone j hj
    · exact fun j _ _ hj => absurd (hj ▸ trivial) (hnone j)

variable {cond : System ι κ lo ρ σ → Event ι κ → Prop}

/-- However the steps of the threads alternate, they guard each other. -/
theorem guarded (h : Reachable (step B) cond (.init init) s) : Guarded B init s :=
  h.invariant (Guarded B init) (guarded_init B init) fun _ _ _ hs _ hstep =>
    hs.step (stepped_of_step hstep)

omit [DecidableEq ι] in
/-- While no thread holds the lock, what is shared is what the calls have left that have gone
through. -/
theorem Guarded.shared_of_free (h : Guarded B init s) (hfree : s.flag = false) :
    B.Serial init s.log s.shared := by
  obtain ⟨u, hlog, hu, -⟩ := h.serial
  have hshared : s.shared = u := by
    refine hu.resolve_right fun ⟨i, call, p, hi⟩ => ?_
    have := h.flag.mpr ⟨i, hi ▸ trivial⟩
    rw [hfree] at this
    cases this
  rwa [hshared]

end Guarding

end System

end SpinLock
