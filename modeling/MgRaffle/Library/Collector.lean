import Mathlib.Tactic

namespace Collector

variable {σ α β : Type*}

/-- A reader that fills one part of its input after another: the part `p` takes
`need p` symbols, and `finish p` says which part follows and what is emitted. -/
structure Reader (σ α β : Type*) where
  need : σ → ℤ
  finish : σ → List α → σ × List β

@[ext] structure State (σ α : Type*) where
  part : σ
  got : List α
  deriving DecidableEq

variable (c : Reader σ α β)

/-- One round takes what the current part still lacks, or all that is left.
A part that asks for less than it already holds stops the reader. -/
def Reader.round (s : State σ α) (rest : List α) : Option (State σ α × List α × List β) :=
  if c.need s.part < s.got.length then none
  else
    let k := (c.need s.part - s.got.length).toNat
    let got := s.got ++ rest.take k
    if c.need s.part = got.length then
      some (⟨(c.finish s.part got).1, []⟩, rest.drop k, (c.finish s.part got).2)
    else some (⟨s.part, got⟩, rest.drop k, [])

/-- `Visits s xs t ys out`: rounds on the input `xs` lead to `t` with `ys` unread. -/
inductive Reader.Visits :
    State σ α → List α → State σ α → List α → List β → Prop
  | refl (s : State σ α) (xs : List α) : Visits s xs s xs []
  | round {s t u : State σ α} {xs ys zs : List α} {o out : List β} (hne : xs ≠ [])
      (hr : c.round s xs = some (t, ys, o)) (hv : Visits t ys u zs out) :
      Visits s xs u zs (o ++ out)

/-- The whole input is read. -/
def Reader.Reads (s : State σ α) (xs : List α) (t : State σ α) (out : List β) : Prop :=
  c.Visits s xs t [] out

/-- A state between rounds: nothing collected, or less than the part needs. -/
def Reader.Waiting (s : State σ α) : Prop := s.got = [] ∨ (s.got.length : ℤ) < c.need s.part

section Rounds

variable {c} {s t : State σ α} {xs ys : List α} {o : List β}

theorem round_eq_none : c.round s xs = none ↔ c.need s.part < s.got.length := by
  unfold Reader.round
  by_cases h : c.need s.part < s.got.length
  · simp [h]
  · simp only [h, ↓reduceIte, iff_false]
    split_ifs <;> simp

theorem need_of_round (h : c.round s xs = some (t, ys, o)) : (s.got.length : ℤ) ≤ c.need s.part := by
  by_contra hlt
  have hn : c.round s xs = none := round_eq_none.mpr (by omega)
  rw [hn] at h
  cases h

/-- The part is filled by the first symbols of the input. -/
theorem round_fills {as : List α} (h : c.need s.part = s.got.length + as.length)
    (bs : List α) :
    c.round s (as ++ bs) =
      some (⟨(c.finish s.part (s.got ++ as)).1, []⟩, bs, (c.finish s.part (s.got ++ as)).2) := by
  have hk : (c.need s.part - s.got.length).toNat = as.length := by omega
  have hlt : ¬ c.need s.part < s.got.length := by omega
  have hfull : c.need s.part = ((s.got ++ as).length : ℤ) := by
    rw [h, List.length_append]
    push_cast
    rfl
  rw [Reader.round, if_neg hlt]
  simp only [hk, List.take_left, List.drop_left]
  rw [if_pos hfull]

/-- The input ends inside the part. -/
theorem round_short (h : (s.got.length : ℤ) + xs.length < c.need s.part) :
    c.round s xs = some (⟨s.part, s.got ++ xs⟩, [], []) := by
  have hk : xs.length ≤ (c.need s.part - s.got.length).toNat := by omega
  have hlt : ¬ c.need s.part < s.got.length := by omega
  have hfull : ¬ c.need s.part = ((s.got ++ xs).length : ℤ) := by
    rw [List.length_append]
    push_cast
    omega
  rw [Reader.round, if_neg hlt]
  simp only [List.take_of_length_le hk, List.drop_of_length_le hk]
  rw [if_neg hfull]

/-- What one round does: it takes some of the input and stops inside the part, or fills the
part and goes on. -/
theorem round_cases (h : c.round s xs = some (t, ys, o)) : ∃ as, xs = as ++ ys ∧
    (((s.got.length : ℤ) + as.length < c.need s.part ∧ ys = [] ∧ t = ⟨s.part, s.got ++ as⟩ ∧
      o = []) ∨
    (c.need s.part = s.got.length + as.length ∧ t = ⟨(c.finish s.part (s.got ++ as)).1, []⟩ ∧
      o = (c.finish s.part (s.got ++ as)).2)) := by
  have hle := need_of_round h
  by_cases hshort : (s.got.length : ℤ) + xs.length < c.need s.part
  · rw [round_short hshort] at h
    simp only [Option.some.injEq, Prod.mk.injEq] at h
    obtain ⟨ht, hys, ho⟩ := h
    exact ⟨xs, by simp [← hys], Or.inl ⟨hshort, hys.symm, ht.symm, ho.symm⟩⟩
  · let k := (c.need s.part - s.got.length).toNat
    have hk : k ≤ xs.length := by omega
    have hneed : c.need s.part = s.got.length + (xs.take k).length := by
      rw [List.length_take, Nat.min_eq_left hk]
      omega
    have hfill := round_fills hneed (xs.drop k)
    rw [List.take_append_drop, h] at hfill
    simp only [Option.some.injEq, Prod.mk.injEq] at hfill
    obtain ⟨ht, hys, ho⟩ := hfill
    exact ⟨xs.take k, by rw [hys, List.take_append_drop], Or.inr ⟨hneed, ht, ho⟩⟩

theorem waiting_round (h : c.round s xs = some (t, ys, o)) : c.Waiting t := by
  obtain ⟨as, -, ⟨hlt, -, rfl, -⟩ | ⟨-, rfl, -⟩⟩ := round_cases h
  · right
    simpa [List.length_append] using hlt
  · exact Or.inl rfl

/-- A round that ends before the input does is not changed by more input. -/
theorem round_append (h : c.round s xs = some (t, ys, o)) (hgot : t.got = [] ∨ ys ≠ [])
    (hne : xs ≠ []) (zs : List α) : c.round s (xs ++ zs) = some (t, ys ++ zs, o) := by
  obtain ⟨as, rfl, ⟨-, rfl, rfl, -⟩ | ⟨hneed, rfl, rfl⟩⟩ := round_cases h
  · rcases hgot with hgot | hgot
    · exact absurd (by simpa using (List.append_eq_nil_iff.mp hgot).2) hne
    · exact absurd rfl hgot
  · rw [List.append_assoc]
    exact round_fills hneed _

/-- More input carries on a part that was left short. -/
theorem round_resume (hshort : (s.got.length : ℤ) + xs.length < c.need s.part) (zs : List α) :
    c.round s (xs ++ zs) = c.round ⟨s.part, s.got ++ xs⟩ zs := by
  rcases lt_or_ge ((s.got.length : ℤ) + (xs ++ zs).length) (c.need s.part) with hlt | hge
  · have hlt' : (((s.got ++ xs).length : ℕ) : ℤ) + zs.length < c.need s.part := by
      simp only [List.length_append] at hlt ⊢
      push_cast at hlt ⊢
      omega
    rw [round_short hlt, round_short hlt', List.append_assoc]
  · -- both rounds fill the part, with the same `k` symbols of `zs`
    simp only [List.length_append] at hge
    push_cast at hge
    let k := (c.need s.part - s.got.length - xs.length).toNat
    have hk : (zs.take k).length = k := by
      rw [List.length_take]
      omega
    have h1 : c.need s.part = s.got.length + (xs ++ zs.take k).length := by
      simp only [List.length_append, hk]
      push_cast
      omega
    have h2 : c.need s.part = ((s.got ++ xs).length : ℕ) + (zs.take k).length := by
      simp only [List.length_append, hk]
      push_cast
      omega
    have e1 := round_fills h1 (zs.drop k)
    have e2 := @round_fills _ _ _ c ⟨s.part, s.got ++ xs⟩ _ h2 (zs.drop k)
    rw [List.append_assoc, List.take_append_drop] at e1
    rw [List.take_append_drop] at e2
    rw [e1, e2, List.append_assoc]

end Rounds

section Runs

variable {c} {s t u : State σ α} {xs ys zs : List α} {o o₁ o₂ : List β}

theorem Reader.Visits.trans (h₁ : c.Visits s xs t ys o₁) (h₂ : c.Visits t ys u zs o₂) :
    c.Visits s xs u zs (o₁ ++ o₂) := by
  induction h₁ with
  | refl => exact h₂
  | round hne hr _ ih =>
    rw [List.append_assoc]
    exact .round hne hr (ih h₂)

theorem Reader.Visits.single (hne : xs ≠ []) (hr : c.round s xs = some (t, ys, o)) :
    c.Visits s xs t ys o := by
  simpa using Reader.Visits.round hne hr (.refl t ys)

/-- What every filled part keeps, and what every emission has, a run keeps and has. -/
theorem Reader.Visits.invariant {Inv : σ → Prop} {Emit : β → Prop}
    (hfin : ∀ p got, Inv p → c.need p = (got.length : ℕ) →
      Inv (c.finish p got).1 ∧ ∀ b ∈ (c.finish p got).2, Emit b)
    (h : c.Visits s xs t ys o) (hs : Inv s.part) : Inv t.part ∧ ∀ b ∈ o, Emit b := by
  induction h with
  | refl => exact ⟨hs, by simp⟩
  | @round s t u xs ys zs o out hne hr _ ih =>
    have hround : Inv t.part ∧ ∀ b ∈ o, Emit b := by
      obtain ⟨as, -, ⟨-, -, rfl, rfl⟩ | ⟨hneed, rfl, rfl⟩⟩ := round_cases hr
      · exact ⟨hs, by simp⟩
      · apply hfin _ _ hs
        rw [List.length_append]
        push_cast
        exact hneed
    obtain ⟨hu, hout⟩ := ih hround.1
    refine ⟨hu, ?_⟩
    intro b hb
    rcases List.mem_append.mp hb with hb | hb
    · exact hround.2 b hb
    · exact hout b hb

theorem Reader.Visits.suffix (h : c.Visits s xs t ys o) : ys <:+ xs := by
  induction h with
  | refl => exact List.suffix_rfl
  | round _ hr _ ih =>
    obtain ⟨as, rfl, -⟩ := round_cases hr
    exact ih.trans (List.suffix_append _ _)

theorem reads_nil_iff : c.Reads s [] t o ↔ t = s ∧ o = [] := by
  constructor
  · intro h
    cases h with
    | refl => exact ⟨rfl, rfl⟩
    | round hne => exact absurd rfl hne
  · rintro ⟨rfl, rfl⟩
    exact .refl _ _

/-- Rounds are a function, so two runs that read everything agree. -/
theorem Reader.Reads.unique (h₁ : c.Reads s xs t o₁) (h₂ : c.Reads s xs u o₂) :
    t = u ∧ o₁ = o₂ := by
  unfold Reader.Reads at h₁
  -- the empty rest has to be a variable for the induction on the run
  generalize hnil : ([] : List α) = e at h₁
  induction h₁ generalizing o₂ with
  | refl s xs =>
    subst hnil
    obtain ⟨rfl, rfl⟩ := reads_nil_iff.mp h₂
    exact ⟨rfl, rfl⟩
  | round hne hr _ ih =>
    cases h₂ with
    | refl => exact absurd rfl hne
    | round _ hr' hv' =>
      rw [hr] at hr'
      simp only [Option.some.injEq, Prod.mk.injEq] at hr'
      obtain ⟨rfl, rfl, rfl⟩ := hr'
      obtain ⟨rfl, rfl⟩ := ih hv' hnil
      exact ⟨rfl, rfl⟩

/-- A run that reads everything passes through every configuration it visits. -/
theorem Reader.Reads.after (h : c.Reads s xs u o) (hv : c.Visits s xs t ys o₁) :
    ∃ o₂, c.Reads t ys u o₂ ∧ o = o₁ ++ o₂ := by
  induction hv generalizing o with
  | refl => exact ⟨o, h, rfl⟩
  | round hne hr _ ih =>
    cases h with
    | refl => exact absurd rfl hne
    | round _ hr' hv' =>
      rw [hr] at hr'
      simp only [Option.some.injEq, Prod.mk.injEq] at hr'
      obtain ⟨rfl, rfl, rfl⟩ := hr'
      obtain ⟨o₂, h₂, rfl⟩ := ih hv'
      exact ⟨o₂, h₂, by rw [List.append_assoc]⟩

theorem need_of_reads (h : c.Reads s xs u o) (hv : c.Visits s xs t ys o₁) (hne : ys ≠ []) :
    (t.got.length : ℤ) ≤ c.need t.part := by
  obtain ⟨o₂, h₂, -⟩ := h.after hv
  cases h₂ with
  | refl => exact absurd rfl hne
  | round _ hr _ => exact need_of_round hr

/-- Reading in two pieces is reading at once. -/
theorem Reader.Reads.append (h₁ : c.Reads s xs t o₁) (h₂ : c.Reads t ys u o₂) :
    c.Reads s (xs ++ ys) u (o₁ ++ o₂) := by
  unfold Reader.Reads at h₁
  generalize hnil : ([] : List α) = e at h₁
  induction h₁ with
  | refl s xs =>
    subst hnil
    exact h₂
  | @round s t' u' xs zs _ o out hne hr hv ih =>
    subst hnil
    by_cases hshort : (s.got.length : ℤ) + xs.length < c.need s.part
    · -- the first piece ends inside the part, so its last round goes on into `ys`
      rw [round_short hshort] at hr
      simp only [Option.some.injEq, Prod.mk.injEq] at hr
      obtain ⟨rfl, rfl, rfl⟩ := hr
      obtain ⟨rfl, rfl⟩ := reads_nil_iff.mp hv
      cases h₂ with
      | refl => simpa [Reader.Reads] using Reader.Visits.single hne (round_short hshort)
      | round hne' hr' hv' =>
        rw [← round_resume hshort] at hr'
        simpa [Reader.Reads] using Reader.Visits.round (by simp [hne]) hr' hv'
    · -- the part is filled before the first piece ends
      have hgot : t'.got = [] := by
        obtain ⟨as, rfl, ⟨hlt, rfl, -⟩ | ⟨-, rfl, -⟩⟩ := round_cases hr
        · exact absurd (by simpa using hlt) hshort
        · rfl
      rw [List.append_assoc]
      exact .round (by simp [hne]) (round_append hr (Or.inl hgot) hne ys) (ih h₂ rfl)

/-- A run that leaves at most `ys` unread has read what comes before. -/
theorem Reader.Visits.split (h : c.Visits s (xs ++ ys) u zs o) (hz : zs <:+ ys) :
    ∃ t o₁ o₂, c.Reads s xs t o₁ ∧ c.Visits t ys u zs o₂ ∧ o = o₁ ++ o₂ := by
  generalize hin : xs ++ ys = input at h
  induction h generalizing xs with
  | refl s ws =>
    subst hin
    have hxs : xs = [] := by
      have hlen := hz.length_le
      rw [List.length_append] at hlen
      exact List.length_eq_zero_iff.mp (by omega)
    subst hxs
    exact ⟨s, [], [], .refl _ _, .refl _ _, rfl⟩
  | @round s t' u' input rest ws o out hne hr hv ih =>
    subst hin
    by_cases hxs : xs = []
    · subst hxs
      exact ⟨s, [], o ++ out, .refl _ _, .round hne hr hv, rfl⟩
    by_cases hshort : (s.got.length : ℤ) + xs.length < c.need s.part
    · -- the first piece ends inside the part: cut the round in two
      refine ⟨⟨s.part, s.got ++ xs⟩, [], o ++ out, .single hxs (round_short hshort), ?_, rfl⟩
      rw [round_resume hshort] at hr
      by_cases hys : ys = []
      · subst hys
        rw [← round_resume hshort, List.append_nil, round_short hshort] at hr
        simp only [Option.some.injEq, Prod.mk.injEq] at hr
        obtain ⟨rfl, rfl, rfl⟩ := hr
        exact hv
      · exact .round hys hr hv
    · obtain ⟨as, has, ⟨hlt, rfl, -⟩ | ⟨hneed, rfl, rfl⟩⟩ := round_cases hr
      · have hlen := congrArg List.length has
        simp only [List.length_append, List.length_nil] at hlen
        omega
      · -- the part is filled before the first piece ends
        obtain ⟨bs, rfl⟩ : ∃ bs, xs = as ++ bs := by
          have hlen : as.length ≤ xs.length := by omega
          have htake : xs.take as.length = as := by
            have := congrArg (List.take as.length) has
            rwa [List.take_append_of_le_length hlen, List.take_left] at this
          exact ⟨xs.drop as.length, by conv_lhs => rw [← List.take_append_drop as.length xs, htake]⟩
        rw [List.append_assoc, List.append_cancel_left_eq] at has
        obtain ⟨t, o₁, o₂, h₁, h₂, rfl⟩ := ih hz has
        refine ⟨t, _, o₂, .round hxs (round_fills hneed _) h₁, h₂, ?_⟩
        rw [List.append_assoc]

theorem Reader.Reads.split (h : c.Reads s (xs ++ ys) u o) :
    ∃ t o₁ o₂, c.Reads s xs t o₁ ∧ c.Reads t ys u o₂ ∧ o = o₁ ++ o₂ :=
  Reader.Visits.split h (List.nil_suffix)

/-- Input behind what a run leaves unread plays no part in it. -/
theorem Reader.Visits.restrict {ws : List α} (h : c.Visits s (xs ++ ws) u (zs ++ ws) o)
    (hzs : zs ≠ []) : c.Visits s xs u zs o := by
  generalize hin : xs ++ ws = input at h
  generalize hout : zs ++ ws = output at h
  induction h generalizing xs with
  | refl s input =>
    obtain rfl : xs = zs := List.append_cancel_right (hin.trans hout.symm)
    exact .refl _ _
  | @round s t u input rest output o out hne hr hv ih =>
    subst hin hout
    obtain ⟨as, has, ⟨-, rfl, -⟩ | ⟨hneed, rfl, rfl⟩⟩ := round_cases hr
    · -- a short round leaves nothing, but `zs ++ ws` is still unread
      have hlen := hv.suffix.length_le
      have hpos := List.length_pos_iff.mpr hzs
      simp only [List.length_append, List.length_nil] at hlen
      omega
    · obtain ⟨vs, rfl⟩ : ∃ vs, rest = vs ++ ws := by
        obtain ⟨vs, hvs⟩ := hv.suffix
        exact ⟨vs ++ zs, by rw [List.append_assoc, hvs]⟩
      obtain rfl : xs = as ++ vs := by
        rw [← List.append_assoc] at has
        exact List.append_cancel_right has
      have hne' : as ++ vs ≠ [] := by
        intro hnil
        have hlen := hv.suffix.length_le
        have hpos := List.length_pos_iff.mpr hzs
        simp only [List.append_eq_nil_iff] at hnil
        simp only [hnil.2, List.length_append, List.length_nil] at hlen
        omega
      exact .round hne' (round_fills hneed _) (ih rfl rfl)

theorem Reader.Visits.fill {as bs : List α} (h : c.need s.part = s.got.length + as.length)
    (hne : as ++ bs ≠ []) :
    c.Visits s (as ++ bs) ⟨(c.finish s.part (s.got ++ as)).1, []⟩ bs
      (c.finish s.part (s.got ++ as)).2 :=
  .single hne (round_fills h bs)

theorem reads_short (h : (s.got.length : ℤ) + xs.length < c.need s.part) :
    c.Reads s xs ⟨s.part, s.got ++ xs⟩ [] := by
  by_cases hne : xs = []
  · subst hne
    rw [List.append_nil]
    exact .refl _ _
  · exact .single hne (round_short h)

end Runs

section Progress

variable {c}

/-- Parts that ask for nothing lead, after finitely many of them, to one that asks. -/
structure Reader.Ranked (c : Reader σ α β) where
  rank : σ → ℕ
  rank_finish : ∀ p, c.need p = 0 → rank (c.finish p []).1 < rank p

/-- Where no visited part asks for a negative number of symbols, the whole input is read. -/
theorem reads_of_nonneg (r : c.Ranked) {s : State σ α} {xs : List α} (hw : c.Waiting s)
    (h : ∀ t ys o, c.Visits s xs t ys o → ys ≠ [] → 0 ≤ c.need t.part) :
    ∃ t o, c.Reads s xs t o := by
  -- a round shortens the input or, taking nothing, lowers the rank
  induction hn : xs.length using Nat.strong_induction_on generalizing s xs with
  | _ n ihn =>
    induction hk : r.rank s.part using Nat.strong_induction_on generalizing s xs with
    | _ k ihk =>
      by_cases hne : xs = []
      · subst hne
        exact ⟨s, [], .refl _ _⟩
      have hpos : (s.got.length : ℤ) ≤ c.need s.part := by
        rcases hw with hw | hw
        · simpa [hw] using h s xs [] (.refl _ _) hne
        · omega
      obtain ⟨⟨t, ys, o⟩, hr⟩ : ∃ res, c.round s xs = some res := by
        rw [← Option.ne_none_iff_exists', ne_eq, round_eq_none]
        omega
      have hrest : ∀ t' ys' o', c.Visits t ys t' ys' o' → ys' ≠ [] → 0 ≤ c.need t'.part :=
        fun t' ys' o' hv => h t' ys' _ (.round hne hr hv)
      have hstep : ∃ t' o', c.Reads t ys t' o' := by
        obtain ⟨as, hxs, ⟨-, rfl, -⟩ | ⟨hneed, ht, -⟩⟩ := round_cases hr
        · exact ⟨t, [], .refl _ _⟩
        · subst hxs
          by_cases has : as = []
          · subst has
            have hgot : s.got = [] := by
              rcases hw with hw | hw
              · exact hw
              · simp at hneed
                omega
            have hzero : c.need s.part = 0 := by simpa [hgot] using hneed
            refine ihk (r.rank t.part) ?_ (waiting_round hr) hrest (by simpa using hn) rfl
            rw [ht, ← hk]
            simpa [hgot] using r.rank_finish s.part hzero
          · refine ihn ys.length ?_ (waiting_round hr) hrest rfl
            have := List.length_pos_iff.mpr has
            simp only [List.length_append] at hn
            omega
      obtain ⟨t', o', ht'⟩ := hstep
      exact ⟨t', o ++ o', .round hne hr ht'⟩

theorem waiting_of_visits {s t : State σ α} {xs ys : List α} {o : List β}
    (h : c.Visits s xs t ys o) (hs : c.Waiting s) : c.Waiting t := by
  induction h with
  | refl => exact hs
  | round _ hr _ ih => exact ih (waiting_round hr)

end Progress

section Checking

/-- Runs the reader for at most `fuel` rounds and tests every state on the way. -/
def Reader.check (test : State σ α → Bool) : ℕ → State σ α → List α → Bool
  | 0, _, _ => false
  | fuel + 1, s, xs => test s && (xs.isEmpty || match c.round s xs with
    | none => true
    | some (t, ys, _) => Reader.check test fuel t ys)

variable {c}

theorem check_sound {test : State σ α → Bool} {fuel : ℕ} {s t : State σ α} {xs ys : List α}
    {o : List β} (h : c.check test fuel s xs = true) (hv : c.Visits s xs t ys o) :
    test t = true := by
  induction hv generalizing fuel with
  | refl =>
    cases fuel with
    | zero => simp [Reader.check] at h
    | succ fuel =>
      simp only [Reader.check, Bool.and_eq_true] at h
      exact h.1
  | round hne hr _ ih =>
    cases fuel with
    | zero => simp [Reader.check] at h
    | succ fuel =>
      simp only [Reader.check, Bool.and_eq_true, Bool.or_eq_true, List.isEmpty_iff, hne, false_or,
        hr] at h
      exact ih h.2

/-- Reads the whole input in at most `fuel` rounds. -/
def Reader.readAll (c : Reader σ α β) : ℕ → State σ α → List α → Option (State σ α × List β)
  | 0, _, _ => none
  | fuel + 1, s, xs =>
    if xs.isEmpty then some (s, [])
    else (c.round s xs).bind fun r =>
      (Reader.readAll c fuel r.1 r.2.1).map fun u => (u.1, r.2.2 ++ u.2)

theorem reads_of_readAll {fuel : ℕ} {s t : State σ α} {xs : List α} {o : List β}
    (h : c.readAll fuel s xs = some (t, o)) : c.Reads s xs t o := by
  induction fuel generalizing s xs o with
  | zero => simp [Reader.readAll] at h
  | succ fuel ih =>
    rw [Reader.readAll] at h
    by_cases hne : xs = []
    · subst hne
      simp only [List.isEmpty_nil, ↓reduceIte, Option.some.injEq, Prod.mk.injEq] at h
      exact reads_nil_iff.mpr ⟨h.1.symm, h.2.symm⟩
    · rw [if_neg (by simpa using hne)] at h
      obtain ⟨⟨u, ys, o₁⟩, hr, hrest⟩ := Option.bind_eq_some_iff.mp h
      obtain ⟨⟨t', o₂⟩, hrec, heq⟩ := Option.map_eq_some_iff.mp hrest
      cases heq
      exact .round hne hr (ih hrec)

end Checking

end Collector
