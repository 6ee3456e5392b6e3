import Mathlib.Tactic

namespace Looping

variable {σ ρ : Type*}

/-- Runs `body` again and again until it yields a result. There is none where the body fails, and
where `fuel` turns are not enough. -/
def loop (body : σ → Option (σ ⊕ ρ)) : ℕ → σ → Option ρ
  | 0, _ => none
  | fuel + 1, s => (body s).bind fun
    | .inl t => loop body fuel t
    | .inr r => some r

variable {body : σ → Option (σ ⊕ ρ)} {s t : σ} {r r' : ρ} {n m : ℕ}

theorem loop_inl (h : body s = some (.inl t)) : loop body (n + 1) s = loop body n t := by
  rw [loop, h, Option.bind_some]

theorem loop_inr (h : body s = some (.inr r)) : loop body (n + 1) s = some r := by
  rw [loop, h, Option.bind_some]

theorem loop_none (h : body s = none) : loop body n s = none := by
  cases n with
  | zero => rfl
  | succ n => rw [loop, h, Option.bind_none]

/-- More fuel does not change a result. -/
theorem loop_mono (h : loop body n s = some r) (hle : n ≤ m) : loop body m s = some r := by
  induction n generalizing s m with
  | zero => cases h
  | succ n ih =>
    obtain ⟨k, rfl⟩ : ∃ k, m = k + 1 := ⟨m - 1, by omega⟩
    cases hb : body s with
    | none =>
      rw [loop_none hb] at h
      cases h
    | some x =>
      cases x with
      | inl t =>
        rw [loop_inl hb] at h ⊢
        exact ih h (by omega)
      | inr r' =>
        rw [loop_inr hb] at h ⊢
        exact h

theorem loop_unique (h : loop body n s = some r) (h' : loop body m s = some r') : r = r' := by
  have hn := loop_mono h (le_max_left n m)
  have hm := loop_mono h' (le_max_right n m)
  rw [hn, Option.some.injEq] at hm
  exact hm

/-- Total correctness: with `m` turns left at most, the body keeps the invariant and lowers `m`, until
it yields a result that is as wanted. -/
theorem loop_total {Inv : ℕ → σ → Prop} {Post : ρ → Prop}
    (hbody : ∀ m s, Inv m s → (∃ t, body s = some (.inl t) ∧ ∃ k < m, Inv k t) ∨
      ∃ r, body s = some (.inr r) ∧ Post r) (hs : Inv m s) (hn : m < n) :
    ∃ r, loop body n s = some r ∧ Post r := by
  induction n generalizing s m with
  | zero => omega
  | succ n ih =>
    rcases hbody m s hs with ⟨t, ht, k, hk, hinv⟩ | ⟨r, hr, hpost⟩
    · rw [loop_inl ht]
      exact ih hinv (by omega)
    · exact ⟨r, loop_inr hr, hpost⟩

/-- Partial correctness: where the loop has a result, the body has kept the invariant. -/
theorem loop_partial (Inv : σ → Prop) (Post : ρ → Prop)
    (hinl : ∀ s t, Inv s → body s = some (.inl t) → Inv t)
    (hinr : ∀ s r, Inv s → body s = some (.inr r) → Post r) (hs : Inv s)
    (h : loop body n s = some r) : Post r := by
  induction n generalizing s with
  | zero => cases h
  | succ n ih =>
    cases hb : body s with
    | none =>
      rw [loop_none hb] at h
      cases h
    | some x =>
      cases x with
      | inl t =>
        rw [loop_inl hb] at h
        exact ih (hinl s t hs hb) h
      | inr r' =>
        rw [loop_inr hb, Option.some.injEq] at h
        subst h
        exact hinr s r' hs hb

/-- A loop that yields a result does so by turns, the last of which yields it. -/
theorem loop_path (h : loop body n s = some r) :
    ∃ t, Relation.ReflTransGen (fun a b => body a = some (.inl b)) s t ∧ body t = some (.inr r) := by
  induction n generalizing s with
  | zero => cases h
  | succ n ih =>
    cases hb : body s with
    | none =>
      rw [loop_none hb] at h
      cases h
    | some x =>
      cases x with
      | inl u =>
        rw [loop_inl hb] at h
        obtain ⟨t, hpath, hlast⟩ := ih h
        exact ⟨t, Relation.ReflTransGen.head hb hpath, hlast⟩
      | inr r' =>
        rw [loop_inr hb, Option.some.injEq] at h
        subst h
        exact ⟨s, .refl, hb⟩

section Outcome

/-- How `n` turns end: with a result, or `some none` where the body fails. There is no outcome where
`n` turns are not enough. -/
def outcome (body : σ → Option (σ ⊕ ρ)) : ℕ → σ → Option (Option ρ)
  | 0, _ => none
  | fuel + 1, s =>
    match body s with
    | none => some none
    | some (.inl t) => outcome body fuel t
    | some (.inr r) => some (some r)

theorem outcome_inl (h : body s = some (.inl t)) : outcome body (n + 1) s = outcome body n t := by
  rw [outcome, h]

theorem outcome_inr (h : body s = some (.inr r)) : outcome body (n + 1) s = some (some r) := by
  rw [outcome, h]

theorem outcome_none (h : body s = none) : outcome body (n + 1) s = some none := by
  rw [outcome, h]

/-- More fuel does not change an outcome. -/
theorem outcome_mono {o : Option ρ} (h : outcome body n s = some o) (hle : n ≤ m) :
    outcome body m s = some o := by
  induction n generalizing s m with
  | zero => cases h
  | succ n ih =>
    obtain ⟨k, rfl⟩ : ∃ k, m = k + 1 := ⟨m - 1, by omega⟩
    cases hb : body s with
    | none =>
      rw [outcome_none hb] at h ⊢
      exact h
    | some x =>
      cases x with
      | inl t =>
        rw [outcome_inl hb] at h ⊢
        exact ih h (by omega)
      | inr r' =>
        rw [outcome_inr hb] at h ⊢
        exact h

theorem outcome_unique {o o' : Option ρ} (h : outcome body n s = some o)
    (h' : outcome body m s = some o') : o = o' := by
  have hn := outcome_mono h (le_max_left n m)
  have hm := outcome_mono h' (le_max_right n m)
  rw [hn, Option.some.injEq] at hm
  exact hm

end Outcome

section Counting

/-- Runs `body` at `0`, …, `n - 1`. -/
def countUp (body : ℕ → σ → Option σ) : ℕ → σ → Option σ
  | 0, s => some s
  | j + 1, s => (countUp body j s).bind (body j)

/-- Runs `body` at `n - 1`, …, `0`. -/
def countDown (body : ℕ → σ → Option σ) : ℕ → σ → Option σ
  | 0, s => some s
  | i + 1, s => (body i s).bind (countDown body i)

/-- Where the counting loop has a result, each turn has kept the invariant. -/
theorem countUp_partial {body : ℕ → σ → Option σ} (Inv : ℕ → σ → Prop)
    (hbody : ∀ j s t, j < n → Inv j s → body j s = some t → Inv (j + 1) t) (hs : Inv 0 s)
    (h : countUp body n s = some t) : Inv n t := by
  induction n generalizing t with
  | zero =>
    cases h
    exact hs
  | succ n ih =>
    obtain ⟨u, hu, ht⟩ := Option.bind_eq_some_iff.mp h
    refine hbody n u t n.lt_succ_self ?_ ht
    exact ih (fun j s t hj => hbody j s t (hj.trans n.lt_succ_self)) hu

/-- Each turn of the counting loop has a result and keeps the invariant. -/
theorem countUp_total {body : ℕ → σ → Option σ} {Inv : ℕ → σ → Prop}
    (hbody : ∀ j s, j < n → Inv j s → ∃ t, body j s = some t ∧ Inv (j + 1) t) (hs : Inv 0 s) :
    ∃ t, countUp body n s = some t ∧ Inv n t := by
  induction n with
  | zero => exact ⟨s, rfl, hs⟩
  | succ n ih =>
    obtain ⟨u, hu, hinv⟩ := ih fun j s hj => hbody j s (hj.trans n.lt_succ_self)
    obtain ⟨t, ht, hnext⟩ := hbody n u n.lt_succ_self hinv
    exact ⟨t, by rw [countUp, hu, Option.bind_some, ht], hnext⟩

end Counting

end Looping
