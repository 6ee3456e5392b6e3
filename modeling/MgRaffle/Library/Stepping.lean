import Mathlib.Tactic
import Mathlib.Logic.Relation

namespace Stepping

variable {σ ε : Type*}

section Loops

variable (step : σ → Option σ)

/-- The states a loop passes through; `none` means that it has returned. -/
def Reaches : σ → σ → Prop := Relation.ReflTransGen fun s t => step s = some t

def Returns (s t : σ) : Prop := Reaches step s t ∧ step t = none

/-- The state after `n` steps, if there are that many. -/
def iterate : ℕ → σ → Option σ
  | 0, s => some s
  | n + 1, s => (step s).bind (iterate n)

variable {step} {s t u : σ}

theorem reaches_of_iterate {n : ℕ} (h : iterate step n s = some t) : Reaches step s t := by
  induction n generalizing s with
  | zero =>
    cases h
    exact .refl
  | succ n ih =>
    obtain ⟨u, hu, hrest⟩ := Option.bind_eq_some_iff.mp h
    exact Relation.ReflTransGen.head hu (ih hrest)

theorem Reaches.next (h : step s = some t) (ht : Reaches step t u) : Reaches step s u :=
  Relation.ReflTransGen.head h ht

theorem Reaches.invariant (Inv : σ → Prop)
    (hstep : ∀ s t, Inv s → step s = some t → Inv t) (hs : Inv s) (h : Reaches step s t) :
    Inv t := by
  induction h with
  | refl => exact hs
  | tail _ hst ih => exact hstep _ _ ih hst

/-- Steps are a function: whatever the loop passes through lies on the way to its end. -/
theorem Returns.of_reaches (h : Returns step s u) (hst : Reaches step s t) : Returns step t u := by
  induction hst with
  | refl => exact h
  | tail _ hstep ih =>
    obtain ⟨hreach, hend⟩ := ih
    rcases Relation.ReflTransGen.cases_head hreach with rfl | ⟨v, hv, hvu⟩
    · rw [hstep] at hend
      cases hend
    · rw [hstep] at hv
      cases hv
      exact ⟨hvu, hend⟩

theorem Returns.unique (h₁ : Returns step s t) (h₂ : Returns step s u) : t = u := by
  have h := h₂.of_reaches h₁.1
  rcases Relation.ReflTransGen.cases_head h.1 with rfl | ⟨v, hv, -⟩
  · rfl
  · rw [h₁.2] at hv
    cases hv

/-- Tests every state that the loop passes through, if it returns in fewer than `fuel` steps. -/
def testAll (step : σ → Option σ) (test : σ → Bool) : ℕ → σ → Bool
  | 0, _ => false
  | fuel + 1, s => test s && (step s).all (testAll step test fuel)

theorem test_of_reaches {test : σ → Bool} {fuel : ℕ} (h : testAll step test fuel s = true)
    (hst : Reaches step s t) : test t = true := by
  induction hst using Relation.ReflTransGen.head_induction_on generalizing fuel with
  | refl =>
    cases fuel with
    | zero => cases h
    | succ fuel => exact (Bool.and_eq_true_iff.mp h).1
  | head hstep _ ih =>
    cases fuel with
    | zero => cases h
    | succ fuel =>
      have hrest := (Bool.and_eq_true_iff.mp h).2
      rw [hstep] at hrest
      exact ih hrest

/-- A loop that comes back to a set of states again and again never returns. -/
theorem not_returns_of_cycle {P : σ → Prop}
    (hcycle : ∀ s, P s → ∃ t u, step s = some t ∧ Reaches step t u ∧ P u) (hs : P s) :
    ¬ ∃ t, Returns step s t := by
  rintro ⟨t, hreach, hend⟩
  -- every state the loop passes through still has the cycle ahead of it
  have hpre : ∃ u, Reaches step t u ∧ P u := by
    refine Reaches.invariant (fun v => ∃ u, Reaches step v u ∧ P u) ?_ ⟨s, .refl, hs⟩ hreach
    rintro v w ⟨u, hvu, hu⟩ hvw
    rcases Relation.ReflTransGen.cases_head hvu with rfl | ⟨x, hx, hxu⟩
    · obtain ⟨x, y, hx, hxy, hy⟩ := hcycle v hu
      rw [hvw] at hx
      cases hx
      exact ⟨y, hxy, hy⟩
    · rw [hvw] at hx
      cases hx
      exact ⟨u, hxu, hu⟩
  obtain ⟨u, htu, hu⟩ := hpre
  rcases Relation.ReflTransGen.cases_head htu with rfl | ⟨x, hx, -⟩
  · obtain ⟨x, -, hx, -⟩ := hcycle t hu
    rw [hend] at hx
    cases hx
  · rw [hend] at hx
    cases hx

end Loops

section Runs

variable (step : σ → ε → Option σ)

/-- The states reached from `init` by steps that all meet the condition `cond`. -/
inductive Reachable (cond : σ → ε → Prop) (init : σ) : σ → Prop
  | init : Reachable cond init init
  | step {s t : σ} {e : ε} (hs : Reachable cond init s) (hc : cond s e)
      (ht : step s e = some t) : Reachable cond init t

/-- Takes the steps one after another, as long as each one meets the condition. -/
def runIf (cond : σ → ε → Prop) [∀ s e, Decidable (cond s e)] : σ → List ε → Option σ
  | s, [] => some s
  | s, e :: es => if cond s e then (step s e).bind fun t => runIf cond t es else none

variable {step} {cond : σ → ε → Prop} {init s t : σ}

theorem Reachable.invariant (Inv : σ → Prop) (hinit : Inv init)
    (hstep : ∀ s e t, Inv s → cond s e → step s e = some t → Inv t)
    (h : Reachable step cond init s) : Inv s := by
  induction h with
  | init => exact hinit
  | step _ hc ht ih => exact hstep _ _ _ ih hc ht

theorem Reachable.of_runIf [∀ s e, Decidable (cond s e)] {es : List ε}
    (hs : Reachable step cond init s) (h : runIf step cond s es = some t) :
    Reachable step cond init t := by
  induction es generalizing s with
  | nil =>
    cases h
    exact hs
  | cons e es ih =>
    rw [runIf] at h
    split_ifs at h with hc
    obtain ⟨u, hu, hrest⟩ := Option.bind_eq_some_iff.mp h
    exact ih (.step hs hc hu) hrest

end Runs

section Events

variable (step : σ → ε → Option σ)

/-- Every state that a run passes through has the property. -/
def Throughout (P : σ → Prop) : σ → List ε → Prop
  | s, [] => P s
  | s, e :: es => P s ∧ ∀ t, step s e = some t → Throughout P t es

/-- Every step of a run meets the condition. -/
def EachStep (cond : σ → ε → Prop) : σ → List ε → Prop
  | _, [] => True
  | s, e :: es => ∀ t, step s e = some t → cond s e ∧ EachStep cond t es

/-- Every call of a run has the property, the one included that the run does not come back from. -/
def EachCall (cond : σ → ε → Prop) : σ → List ε → Prop
  | _, [] => True
  | s, e :: es => cond s e ∧ ∀ t, step s e = some t → EachCall cond t es

variable {step} {cond : σ → ε → Prop} {P : σ → Prop} {s : σ} {es : List ε}

theorem Throughout.head (h : Throughout step P s es) : P s := by
  cases es with
  | nil => exact h
  | cons e es => exact h.1

theorem throughout_of_invariant (Inv : σ → Prop)
    (hinv : ∀ s e t, Inv s → step s e = some t → Inv t) (hP : ∀ s, Inv s → P s) (hs : Inv s) :
    Throughout step P s es := by
  induction es generalizing s with
  | nil => exact hP s hs
  | cons e es ih => exact ⟨hP s hs, fun t ht => ih (hinv s e t hs ht)⟩

/-- Where exactly the steps under a condition keep a property, exactly the runs of such steps have
it throughout. -/
theorem throughout_iff (Inv : σ → Prop) (hinv : ∀ s e t, Inv s → step s e = some t → Inv t)
    (hstep : ∀ s e t, Inv s → P s → step s e = some t → (P t ↔ cond s e))
    (hs : Inv s) (hP : P s) : Throughout step P s es ↔ EachStep step cond s es := by
  induction es generalizing s with
  | nil => exact iff_of_true hP trivial
  | cons e es ih =>
    constructor
    · intro h t ht
      have hrest := h.2 t ht
      refine ⟨(hstep s e t hs hP ht).mp hrest.head, ?_⟩
      exact (ih (hinv s e t hs ht) hrest.head).mp hrest
    · intro h
      refine ⟨hP, ?_⟩
      intro t ht
      have hrest := h t ht
      exact (ih (hinv s e t hs ht) ((hstep s e t hs hP ht).mpr hrest.1)).mpr hrest.2

/-- Where exactly the calls under a condition are right, exactly the runs of such calls are right in
every call. The invariant has to survive the calls under the condition only. -/
theorem eachCall_iff {good : σ → ε → Prop} (Inv : σ → Prop)
    (hinv : ∀ s e t, Inv s → cond s e → step s e = some t → Inv t)
    (hcall : ∀ s e, Inv s → (good s e ↔ cond s e)) (hs : Inv s) :
    EachCall step good s es ↔ EachCall step cond s es := by
  induction es generalizing s with
  | nil => exact Iff.rfl
  | cons e es ih =>
    constructor
    · intro h
      have hc := (hcall s e hs).mp h.1
      refine ⟨hc, ?_⟩
      intro t ht
      exact (ih (hinv s e t hs hc ht)).mp (h.2 t ht)
    · intro h
      refine ⟨(hcall s e hs).mpr h.1, ?_⟩
      intro t ht
      exact (ih (hinv s e t hs h.1 ht)).mpr (h.2 t ht)

end Events

end Stepping
