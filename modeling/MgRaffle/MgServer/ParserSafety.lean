import MgRaffle.MgServer.Feeding

namespace MgRaffle.MgServer
open Collector Stepping

section Safe

variable {store : BufId → List UInt8} {base : BufId → ℕ} {m m' : ParseState}
  {s t : State Part UInt8} {rest : List UInt8} {fs o : List Frame}

/-- As long as no negative length is met with bytes at hand, a call can be read. -/
theorem reads_of_call (h : Sim store base m s rest fs) (hw : frameReader.Waiting s)
    (hsafe : ∀ m' s' rest' fs', Reaches ParseState.step m m' → Sim store base m' s' rest' fs' →
      rest' ≠ [] → m'.loop = s'.part.loop → s'.part.loop = .splitMessage →
      0 ≤ frameReader.need s'.part) :
    ∃ t o, frameReader.Reads s rest t o := by
  apply reads_of_nonneg frameReader_ranked hw
  intro t ys o hv hne
  obtain ⟨m₁, hreach, -, h₁⟩ := reaches_of_visits hv h
  cases hs : t.part.loop with
  | parseConnection =>
    -- the parts of the outer loop have fixed lengths
    cases hp : t.part <;> rw [hp] at hs <;> simp only [Part.loop, reduceCtorEq] at hs <;>
      simp [frameReader]
  | splitMessage =>
    by_cases hl : m₁.loop = t.part.loop
    · exact hsafe m₁ t ys _ hreach h₁ hne hl hs
    · obtain ⟨m₂, hstep, -, h₂, -, hl₂, -⟩ := sim_enter h₁ hne hl
      exact hsafe m₂ t ys _ (hreach.trans (Reaches.next hstep .refl)) h₂ hne (hl₂.trans hs.symm) hs

variable {fd : ℤ} {chunks before cs : List (List UInt8)} {conn conn' : MConnection} {n : ℕ}
  {rs rs' : List (List MRequest)}

theorem Feeds.snoc {chunk : List UInt8} {m : ParseState} (h : Feeds n conn before conn' rs)
    (hcall : Returns ParseState.step (.feed conn' (n + before.length) chunk) m) :
    Feeds n conn (before ++ [chunk]) m.conn (rs ++ [m.reqs]) := by
  induction h with
  | nil => exact .cons hcall (.nil _ _)
  | cons hcall' _ ih =>
    refine .cons hcall' (ih ?_)
    rw [List.length_cons, Nat.add_comm _ 1, ← Nat.add_assoc] at hcall
    exact hcall

/-- Where no state on the way meets a negative length with bytes at hand, the stream is read. -/
theorem reads_of_visited (hsafe : ∀ m s rest fs, Visited fd chunks m →
      Sim (storeOf chunks) (baseOf chunks) m s rest fs → rest ≠ [] → m.loop = s.part.loop →
      s.part.loop = .splitMessage → 0 ≤ frameReader.need s.part) :
    ∃ t o, frameReader.Reads fresh chunks.flatten t o := by
  -- along the chunks: what is before has been read, what comes next is a call
  have key : ∀ cs before conn rs s o, chunks = before ++ cs → Feeds 0 (.new fd) before conn rs →
      AtRest (storeOf chunks) conn s → frameReader.Reads fresh before.flatten s o →
      ∃ t o', frameReader.Reads s cs.flatten t o' := by
    intro cs
    induction cs with
    | nil => exact fun _ _ _ s _ _ _ _ _ => ⟨s, [], .refl _ _⟩
    | cons chunk cs ih =>
      intro before conn rs s o hch hfeeds hrest hr
      have hbase : baseOf chunks before.length = position s := by
        have := position_of_visits hr trivial
        rw [baseOf_before hch]
        simpa [position, fresh, inProgress, Part.start] using this
      have hsim := sim_feed hrest (storeOf_before hch) hbase
      have hw : frameReader.Waiting s := waiting_of_visits hr (Or.inl rfl)
      obtain ⟨u, o₁, hr₁⟩ := reads_of_call hsim hw fun m' s' rest' fs' hreach h' hne hl hs =>
        hsafe m' s' rest' fs' ⟨before, chunk, cs, conn, rs, hch, hfeeds, hreach⟩ h' hne hl hs
      obtain ⟨m, hret, hl, -, hm⟩ := returns_of_reads hr₁ hsim
      have hfeeds' : Feeds 0 (.new fd) (before ++ [chunk]) m.conn (rs ++ [m.reqs]) :=
        hfeeds.snoc (by rwa [Nat.zero_add])
      have hr' : frameReader.Reads fresh (before ++ [chunk]).flatten u (o ++ o₁) := by
        rw [List.flatten_append, List.flatten_singleton]
        exact hr.append hr₁
      obtain ⟨t, o₂, hr₂⟩ := ih (before ++ [chunk]) m.conn (rs ++ [m.reqs]) u (o ++ o₁)
        (by rw [hch]; simp) hfeeds' ⟨hl ▸ hm.inPart, hm.wf⟩ hr'
      exact ⟨t, o₁ ++ o₂, hr₁.append hr₂⟩
  exact key chunks [] (.new fd) [] fresh [] rfl (.nil _ _) atRest_fresh (.refl _ _)

theorem Sim.need_of_counter (h : Sim store base m s rest fs) (hc : 0 ≤ m.counter) :
    0 ≤ frameReader.need s.part := by
  have := h.counter_eq
  omega

theorem Sim.parseType_ne_magic (h : Sim store base m s rest fs) (hs : s.part.loop = .splitMessage) :
    m.conn.parseType ≠ .magic := by
  have hin := h.inPart
  unfold InPart at hin
  cases hp : s.part <;> rw [hp] at hin hs
  · cases hs
  · cases hs
  all_goals
    rw [hin.1]
    exact fun h => nomatch h

end Safe

section Window

/-- The buffers to which a state refers through guards. -/
def ParseState.guards (m : ParseState) : List MBufferGuard :=
  m.conn.theParser.req.rpcHeaderBuf.bufList ++ m.conn.theParser.req.rpcBodyBuf.bufList ++
    m.reqs.flatMap fun r => r.rpcHeaderBuf.bufList ++ r.rpcBodyBuf.bufList

/-- Cursor, counter, the range of the coming copy or guard, every guard built so far, and the
two counters of the parser stay inside the `n` bytes received. -/
structure InWindow (store : BufId → List UInt8) (m : ParseState) : Prop where
  cursor : 0 ≤ m.buf.curIndex
  total : m.buf.curIndex + m.length = (store m.id).length
  length : 0 ≤ m.length ∧ m.length ≤ (store m.id).length
  range : 0 < m.length → 0 ≤ m.remain ∧ m.buf.curIndex + m.remain ≤ (store m.id).length
  guards : ∀ g ∈ m.guards, g.Within store
  headerRemain : 0 ≤ m.conn.theParser.headerRemain
  rpcRemain : ∀ r ∈ m.conn.theParser.rpcRemain, 0 ≤ r

variable {store : BufId → List UInt8} {base : BufId → ℕ} {m : ParseState}
  {s : State Part UInt8} {rest : List UInt8} {fs : List Frame} {l : Loop} {c : MConnection}

/-- The parser of a connection: its counters are not negative, unless a negative length has
been loaded, and its guards lie inside their buffers. -/
theorem InPart.parser_ok (h : InPart store l c s) :
    0 ≤ c.theParser.headerRemain ∧
      ((s.got.length : ℤ) ≤ frameReader.need s.part → ∀ r ∈ c.theParser.rpcRemain, 0 ≤ r) ∧
      (∀ g ∈ c.theParser.req.rpcHeaderBuf.bufList, g.Within store) ∧
      ∀ g ∈ c.theParser.req.rpcBodyBuf.bufList, g.Within store := by
  unfold InPart at h
  cases hp : s.part with
  | magic =>
    rw [hp] at h
    rw [h.2.2.2.2.1]
    refine ⟨by decide, ?_, ?_, ?_⟩ <;> simp [MParser.new, MRequest.new, MReadBuf.new]
  | between mg start =>
    rw [hp] at h
    rw [h.2.2.2.2.1]
    refine ⟨by decide, ?_, ?_, ?_⟩ <;> simp [MRequest.new, MReadBuf.new]
  | lengths mg start =>
    rw [hp] at h
    obtain ⟨-, -, -, hlt, hthe⟩ := h
    rw [hthe]
    refine ⟨by simp only; omega, ?_, ?_, ?_⟩
    · intro _ r hr
      simp only at hr
      split_ifs at hr
      · cases hr
      · cases hr
        exact le_rfl
    · simp [MReadBuf.new]
    · simp [MReadBuf.new]
  | header mg start ls =>
    rw [hp] at h
    obtain ⟨-, -, -, buf, hthe, hbuf⟩ := h
    rw [hthe]
    refine ⟨le_rfl, ?_, hbuf.within, by simp [MReadBuf.new]⟩
    intro hneed r hr
    cases hr
    exact Int.sub_nonneg_of_le hneed
  | body mg start ls hd =>
    rw [hp] at h
    obtain ⟨-, -, -, hbuf, buf, hthe, hhold, hbold⟩ := h
    rw [hthe]
    refine ⟨le_rfl, ?_, hhold.within, hbold.within⟩
    intro hneed r hr
    cases hr
    exact Int.sub_nonneg_of_le hneed

theorem requests_within {rs : List MRequest} (h : List.Forall₂ (IsRequest store base) rs fs) :
    ∀ g ∈ rs.flatMap fun r => r.rpcHeaderBuf.bufList ++ r.rpcBodyBuf.bufList, g.Within store := by
  induction h with
  | nil => exact fun g hg => by cases hg
  | cons hr _ ih =>
    intro g hg
    rcases List.mem_append.mp hg with hg | hg
    · rcases List.mem_append.mp hg with hg | hg
      · exact hr.header.within g hg
      · exact hr.body.within g hg
    · exact ih g hg

theorem Sim.inWindow (h : Sim store base m s rest fs)
    (hneed : (s.got.length : ℤ) ≤ frameReader.need s.part) : InWindow store m := by
  have hcur := h.window.cursor
  have hins := h.window.inside
  have hcount := h.window.count
  have hcounter := h.counter_eq
  obtain ⟨hheader, hrpc, hhg, hbg⟩ := h.inPart.parser_ok
  refine ⟨hcur, hins, by omega, ?_, ?_, hheader, hrpc hneed⟩
  · intro hpos
    rw [m.remain_eq_min]
    omega
  · intro g hg
    rcases List.mem_append.mp hg with hg | hg
    · rcases List.mem_append.mp hg with hg | hg
      · exact hhg g hg
      · exact hbg g hg
    · exact requests_within h.reqs g hg

theorem InWindow.counter_nonneg (h : InWindow store m) (hs : m.conn.parseType ≠ .magic) :
    0 ≤ m.counter := by
  unfold ParseState.counter
  cases ht : m.conn.parseType with
  | magic => exact absurd ht hs
  | header => exact h.headerRemain
  | rpcHeader | rpcContent =>
    cases hr : m.conn.theParser.rpcRemain with
    | none => exact le_rfl
    | some r => exact h.rpcRemain r hr

/-- Where the last call ends, the counter is what the part still needs. -/
theorem InPart.need_nonneg (h : InPart store l c s)
    (hrpc : ∀ r ∈ c.theParser.rpcRemain, 0 ≤ r) : 0 ≤ frameReader.need s.part := by
  unfold InPart at h
  cases hp : s.part with
  | magic | between _ _ | lengths _ _ => simp [frameReader]
  | header mg start ls =>
    rw [hp] at h
    obtain ⟨-, -, -, buf, hthe, -⟩ := h
    have := hrpc _ (by rw [hthe]; rfl)
    simp only [frameReader]
    omega
  | body mg start ls hd =>
    rw [hp] at h
    obtain ⟨-, -, -, hbuf, buf, hthe, -⟩ := h
    have := hrpc _ (by rw [hthe]; rfl)
    simp only [frameReader]
    omega

/-- The parser stays inside the received bytes exactly when no negative length is loaded. -/
theorem inWindow_iff (fd : ℤ) (chunks : List (List UInt8)) :
    (∀ m, Visited fd chunks m → InWindow (storeOf chunks) m) ↔ LoadedNonneg chunks.flatten := by
  constructor
  · intro hwin
    obtain ⟨t, o, hr⟩ : ∃ t o, frameReader.Reads fresh chunks.flatten t o := by
      apply reads_of_visited
      intro m s rest fs hv h _ _ hs
      exact h.need_of_counter ((hwin m hv).counter_nonneg (h.parseType_ne_magic hs))
    apply loadedNonneg_of_reads hr
    obtain rfl | ⟨before, chunk, rfl⟩ := List.eq_nil_or_concat' chunks
    · obtain ⟨rfl, -⟩ := reads_nil_iff.mp hr
      simp [fresh, frameReader]
    -- the state in which the last call returns has been visited, too
    obtain ⟨conn, rs, hfeeds, hrest, -⟩ := feeds_fresh fd hr
    obtain ⟨conn₁, rs₁, rs₂, h₁, h₂, -⟩ := hfeeds.split
    rw [Nat.zero_add] at h₂
    cases h₂ with
    | @cons _ _ _ _ _ m _ hcall hnil =>
      cases hnil
      have hv : Visited fd (before ++ [chunk]) m :=
        ⟨before, chunk, [], conn₁, rs₁, rfl, h₁, hcall.1⟩
      exact hrest.inPart.need_nonneg (hwin m hv).rpcRemain
  · intro hload m hv
    obtain ⟨t, o, hr⟩ := hload.acted.reads
    obtain ⟨s, rest, later, fs, o₁, hsim, hw, hr₁⟩ := sim_of_visited hr hv
    apply hsim.inWindow
    by_cases hne : rest ++ later = []
    · rw [hne] at hr₁
      obtain ⟨rfl, -⟩ := reads_nil_iff.mp hr₁
      have hneed := hload t [] o hr
      rcases hw with hw | hw
      · rw [hw]
        exact hneed
      · omega
    · exact need_of_reads hr₁ (.refl _ _) hne

theorem visited_call {fd : ℤ} {chunk : List UInt8} {m : ParseState}
    (h : Reaches ParseState.step (.feed (.new fd) 0 chunk) m) : Visited fd [chunk] m :=
  ⟨[], chunk, [], .new fd, [], rfl, .nil _ _, h⟩

/-- "peng", a header length of -8, a body length of 0, and one more byte. -/
def hangingChunk : List UInt8 := MAGIC ++ [0xf8, 0xff, 0xff, 0xff, 0, 0, 0, 0] ++ [0x2a]

/-- On `hangingChunk` the header length -8 is loaded into `_rpc_remain`. -/
theorem hangingChunk_leaves_window :
    ¬ ∀ m, Visited 7 [hangingChunk] m → InWindow (storeOf [hangingChunk]) m := by
  intro hwin
  obtain ⟨m, hm⟩ : ∃ m, iterate ParseState.step 3 (.feed (.new 7) 0 hangingChunk) = some m :=
    ⟨_, rfl⟩
  have hrpc := (hwin m (visited_call (reaches_of_iterate hm))).rpcRemain
  cases hm
  revert hrpc
  decide

end Window

end MgRaffle.MgServer
