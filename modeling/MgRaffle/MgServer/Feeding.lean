import MgRaffle.MgServer.Refinement

namespace MgRaffle.MgServer
open Collector Stepping

section Calls

variable {store : BufId → List UInt8} {base : BufId → ℕ} {m m' : ParseState}
  {s t : State Part UInt8} {rest rest' : List UInt8} {fs o : List Frame}

theorem reaches_of_round (h : Sim store base m s rest fs) (hne : rest ≠ [])
    (hr : frameReader.round s rest = some (t, rest', o)) :
    ∃ m', Reaches ParseState.step m m' ∧ m'.id = m.id ∧ Sim store base m' t rest' (fs ++ o) := by
  by_cases hl : m.loop = s.part.loop
  · obtain ⟨m', hstep, hid, h'⟩ := sim_round h hne hl hr
    exact ⟨m', .next hstep .refl, hid, h'⟩
  · -- the outer loop first hands the part to the inner one
    obtain ⟨m₁, hstep₁, hid₁, h₁, -, hl₁, hs⟩ := sim_enter h hne hl
    obtain ⟨m', hstep, hid, h'⟩ := sim_round h₁ hne (hl₁.trans hs.symm) hr
    exact ⟨m', .next hstep₁ (.next hstep .refl), hid.trans hid₁, h'⟩

/-- The two loops follow the frame reader. -/
theorem reaches_of_visits (hv : frameReader.Visits s rest t rest' o)
    (h : Sim store base m s rest fs) :
    ∃ m', Reaches ParseState.step m m' ∧ m'.id = m.id ∧ Sim store base m' t rest' (fs ++ o) := by
  induction hv generalizing m fs with
  | refl => exact ⟨m, .refl, rfl, by rwa [List.append_nil]⟩
  | round hne hr _ ih =>
    obtain ⟨m₁, hreach₁, hid₁, h₁⟩ := reaches_of_round h hne hr
    obtain ⟨m', hreach, hid, h'⟩ := ih h₁
    exact ⟨m', hreach₁.trans hreach, hid.trans hid₁, by rwa [← List.append_assoc]⟩

/-- A call on bytes that the frame reader can read returns in the state that they lead to. -/
theorem returns_of_reads (hr : frameReader.Reads s rest t o) (h : Sim store base m s rest fs) :
    ∃ m', Returns ParseState.step m m' ∧ m'.loop = .parseConnection ∧ m'.id = m.id ∧
      Sim store base m' t [] (fs ++ o) := by
  obtain ⟨m₁, hreach, hid, h₁⟩ := reaches_of_visits hr h
  rcases sim_leave h₁ with ⟨hl, hnone⟩ | ⟨m₂, hstep, hid₂, h₂, -, hl₂⟩
  · exact ⟨m₁, ⟨hreach, hnone⟩, hl, hid, h₁⟩
  · rcases sim_leave h₂ with ⟨-, hnone⟩ | ⟨m₃, -, -, -, hl₃, -⟩
    · exact ⟨m₂, ⟨hreach.trans (Reaches.next hstep .refl), hnone⟩, hl₂, hid₂.trans hid, h₂⟩
    · rw [hl₂] at hl₃
      cases hl₃

/-- No step of the two loops leaves the way of the frame reader. -/
theorem sim_step (hr : frameReader.Reads s rest t o) (h : Sim store base m s rest fs)
    (hstep : m.step = some m') : ∃ s' rest' o₁,
      frameReader.Visits s rest s' rest' o₁ ∧ Sim store base m' s' rest' (fs ++ o₁) := by
  cases hr with
  | refl =>
    -- everything is read, so the step can only be the return of `SplitMessage`
    rcases sim_leave h with ⟨-, hnone⟩ | ⟨m₁, hstep₁, -, h₁, -, -⟩
    · rw [hstep] at hnone
      cases hnone
    · rw [hstep] at hstep₁
      cases hstep₁
      exact ⟨s, [], [], .refl _ _, by rwa [List.append_nil]⟩
  | @round _ s' _ _ rest' _ o₁ o₂ hne hround hv =>
    by_cases hl : m.loop = s.part.loop
    · obtain ⟨m₁, hstep₁, -, h₁⟩ := sim_round h hne hl hround
      rw [hstep] at hstep₁
      cases hstep₁
      exact ⟨s', rest', o₁, .single hne hround, h₁⟩
    · obtain ⟨m₁, hstep₁, -, h₁, -⟩ := sim_enter h hne hl
      rw [hstep] at hstep₁
      cases hstep₁
      exact ⟨s, rest, [], .refl _ _, by rwa [List.append_nil]⟩

theorem sim_reaches (hr : frameReader.Reads s rest t o) (h : Sim store base m s rest fs)
    (hreach : Reaches ParseState.step m m') : ∃ s' rest' o₁,
      frameReader.Visits s rest s' rest' o₁ ∧ Sim store base m' s' rest' (fs ++ o₁) := by
  induction hreach with
  | refl => exact ⟨s, rest, [], .refl _ _, by rwa [List.append_nil]⟩
  | tail _ hstep ih =>
    obtain ⟨s₁, rest₁, o₁, hv₁, h₁⟩ := ih
    obtain ⟨o₂, hr₁, -⟩ := hr.after hv₁
    obtain ⟨s', rest', o₃, hv', h'⟩ := sim_step hr₁ h₁ hstep
    exact ⟨s', rest', o₁ ++ o₃, hv₁.trans hv', by rwa [← List.append_assoc]⟩

end Calls

section Chunks

/-- Buffer `k` holds chunk `k`. -/
def storeOf (chunks : List (List UInt8)) : BufId → List UInt8 := fun k => chunks.getD k []

/-- The offset of chunk `k` in the stream. -/
def baseOf (chunks : List (List UInt8)) : BufId → ℕ := fun k => (chunks.take k).flatten.length

/-- The state of a connection between two calls. -/
structure AtRest (store : BufId → List UInt8) (conn : MConnection) (s : State Part UInt8) : Prop where
  inPart : InPart store .parseConnection conn s
  wf : s.part.Wf

variable {store : BufId → List UInt8} {base : BufId → ℕ} {conn conn' : MConnection} {n : ℕ}
  {s t : State Part UInt8} {fd : ℤ} {chunk : List UInt8} {chunks before cs after : List (List UInt8)}
  {rs : List (List MRequest)} {o : List Frame}

theorem atRest_fresh : AtRest store (.new fd) fresh :=
  ⟨⟨rfl, rfl, by simp [fresh], rfl, rfl, rfl⟩, trivial⟩

theorem sim_feed (h : AtRest store conn s) (hstore : store n = chunk) (hbase : base n = position s) :
    Sim store base (.feed conn n chunk) s chunk [] := by
  refine ⟨⟨hstore.symm, le_rfl, ?_, rfl, ?_, ?_⟩, h.wf, h.inPart, .nil⟩
  · simp [ParseState.feed, ParseState.call, MBuffer.ofChunk, hstore]
  · simp [ParseState.feed, ParseState.call, MBuffer.ofChunk, hstore]
  · simp [ParseState.feed, ParseState.call, MBuffer.ofChunk, hbase]

theorem storeOf_before (h : chunks = before ++ chunk :: cs) : storeOf chunks before.length = chunk := by
  subst h
  simp [storeOf]

theorem baseOf_before (h : chunks = before ++ cs) :
    baseOf chunks before.length = before.flatten.length := by
  subst h
  simp [baseOf]

/-- Calls on chunks that make up a stream which the frame reader can read all return, and the
requests they return stand for its frames. -/
theorem feeds_of_reads (hch : chunks = before ++ (cs ++ after)) (h : AtRest (storeOf chunks) conn s)
    (hpos : position s = before.flatten.length) (hr : frameReader.Reads s cs.flatten t o) :
    ∃ conn' rs, Feeds before.length conn cs conn' rs ∧ AtRest (storeOf chunks) conn' t ∧
      List.Forall₂ (IsRequest (storeOf chunks) (baseOf chunks)) rs.flatten o := by
  induction cs generalizing before conn s o with
  | nil =>
    obtain ⟨rfl, rfl⟩ := reads_nil_iff.mp hr
    exact ⟨conn, [], .nil _ _, h, .nil⟩
  | cons chunk cs ih =>
    rw [List.flatten_cons] at hr
    obtain ⟨u, o₁, o₂, hr₁, hr₂, rfl⟩ := hr.split
    have hbase : baseOf chunks before.length = position s := by rw [baseOf_before hch, hpos]
    have hsim := sim_feed h (storeOf_before hch) hbase
    obtain ⟨m, hret, hl, -, hm⟩ := returns_of_reads hr₁ hsim
    have hrest : AtRest (storeOf chunks) m.conn u := ⟨hl ▸ hm.inPart, hm.wf⟩
    -- the next chunk begins where this one ends
    have hpos' : position u = (before ++ [chunk]).flatten.length := by
      have := position_of_visits hr₁ h.wf
      rw [List.length_nil] at this
      rw [List.flatten_append, List.length_append, ← hpos, List.flatten_singleton]
      omega
    have hch' : chunks = (before ++ [chunk]) ++ (cs ++ after) := by rw [hch]; simp
    obtain ⟨conn', rs, hfeeds, hrest', hreqs⟩ := ih hch' hrest hpos' hr₂
    rw [List.length_append, List.length_singleton] at hfeeds
    refine ⟨conn', m.reqs :: rs, .cons hret hfeeds, hrest', ?_⟩
    rw [List.flatten_cons]
    exact List.rel_append hm.reqs hreqs

theorem feeds_fresh (fd : ℤ) (hr : frameReader.Reads fresh chunks.flatten t o) :
    ∃ conn rs, Feeds 0 (.new fd) chunks conn rs ∧ AtRest (storeOf chunks) conn t ∧
      List.Forall₂ (IsRequest (storeOf chunks) (baseOf chunks)) rs.flatten o := by
  have hch : chunks = [] ++ (chunks ++ []) := by simp
  exact feeds_of_reads hch atRest_fresh rfl hr

theorem Feeds.unique {conn₁ conn₂ : MConnection} {rs₁ rs₂ : List (List MRequest)}
    (h₁ : Feeds n conn cs conn₁ rs₁) (h₂ : Feeds n conn cs conn₂ rs₂) :
    conn₁ = conn₂ ∧ rs₁ = rs₂ := by
  induction h₁ generalizing rs₂ with
  | nil => cases h₂; exact ⟨rfl, rfl⟩
  | cons hcall _ ih =>
    cases h₂ with
    | cons hcall' hrest' =>
      obtain rfl := hcall.unique hcall'
      obtain ⟨rfl, rfl⟩ := ih hrest'
      exact ⟨rfl, rfl⟩

theorem Feeds.split (h : Feeds n conn (before ++ cs) conn' rs) : ∃ conn₁ rs₁ rs₂,
    Feeds n conn before conn₁ rs₁ ∧ Feeds (n + before.length) conn₁ cs conn' rs₂ ∧
      rs = rs₁ ++ rs₂ := by
  induction before generalizing n conn rs with
  | nil => exact ⟨conn, [], rs, .nil _ _, by simpa using h, rfl⟩
  | cons chunk before ih =>
    cases h with
    | cons hcall hrest =>
      obtain ⟨conn₁, rs₁, rs₂, h₁, h₂, rfl⟩ := ih hrest
      refine ⟨conn₁, _ :: rs₁, rs₂, .cons hcall h₁, ?_, rfl⟩
      rw [List.length_cons, Nat.add_comm before.length, ← Nat.add_assoc]
      exact h₂

theorem Feeds.take (h : Feeds n conn cs conn' rs) (k : ℕ) :
    ∃ conn₁, Feeds n conn (cs.take k) conn₁ (rs.take k) := by
  induction h generalizing k with
  | nil => exact ⟨_, by simpa using Feeds.nil _ _⟩
  | cons hcall _ ih =>
    cases k with
    | zero => exact ⟨_, .nil _ _⟩
    | succ k =>
      obtain ⟨conn₁, h₁⟩ := ih k
      exact ⟨conn₁, .cons hcall h₁⟩

/-- Every state passed through while a readable stream is fed stands for a state of the frame
reader from which the rest of the stream can be read. -/
theorem sim_of_visited {m : ParseState} (hr : frameReader.Reads fresh chunks.flatten t o)
    (hv : Visited fd chunks m) : ∃ s rest later fs o',
      Sim (storeOf chunks) (baseOf chunks) m s rest fs ∧ frameReader.Waiting s ∧
      frameReader.Reads s (rest ++ later) t o' := by
  obtain ⟨before, chunk, after, conn, rs, rfl, hfeeds, hreach⟩ := hv
  rw [List.flatten_append] at hr
  obtain ⟨u, o₁, o₂, hr₁, hr₂, rfl⟩ := hr.split
  rw [List.flatten_cons] at hr₂
  obtain ⟨w, o₃, o₄, hr₃, hr₄, rfl⟩ := hr₂.split
  have hch : before ++ chunk :: after = [] ++ (before ++ chunk :: after) := rfl
  obtain ⟨conn', rs', hfeeds', hrest, -⟩ :=
    feeds_of_reads hch (atRest_fresh : AtRest _ (.new fd) _) rfl hr₁
  obtain ⟨rfl, rfl⟩ := hfeeds.unique hfeeds'
  -- the chunks before end at the offset that the frame reader has come to
  have hbase : baseOf (before ++ chunk :: after) before.length = position u := by
    have := position_of_visits hr₁ trivial
    rw [baseOf_before rfl]
    simpa [position, fresh, inProgress, Part.start] using this
  obtain ⟨s, rest, o₅, hv, hsim⟩ :=
    sim_reaches hr₃ (sim_feed hrest (storeOf_before rfl) hbase) hreach
  obtain ⟨o₆, hr₅, -⟩ := hr₃.after hv
  have hw : frameReader.Waiting s := waiting_of_visits hv (waiting_of_visits hr₁ (Or.inl rfl))
  exact ⟨s, rest, after.flatten, _, _, hsim, hw, hr₅.append hr₄⟩

end Chunks

end MgRaffle.MgServer
