import MgRaffle.MgServer.ParserSafety

namespace MgRaffle.MgServer
open Collector Stepping

/-- A round as the loops make it on an `int length`. A negative length pushes the counter up; past
`INT_MAX` it goes around to a negative number, and then the part counts as read, the call returns
and what is left of its chunk is never looked at. -/
def countedRound (s : State Part UInt8) (rest : List UInt8) :
    Option (State Part UInt8 × List UInt8) :=
  match frameReader.round s rest with
  | some (t, rest', _) => some (t, rest')
  | none =>
    if 2147483647 < rest.length - frameReader.need s.part then
      some (⟨(frameReader.finish s.part []).1, []⟩, [])
    else none

/-- Where the stream has been read to: `rest` is left of the current chunk, and the chunks `later`
are still to come. -/
structure Walk where
  state : State Part UInt8
  rest : List UInt8
  later : List (List UInt8)
  deriving DecidableEq

namespace Walk

def start (chunks : List (List UInt8)) : Walk := ⟨fresh, [], chunks⟩

/-- A round on the current chunk, or the next chunk when that one is used up. -/
def next (w : Walk) : Option Walk :=
  if w.rest = [] then
    match w.later with
    | [] => none
    | chunk :: later => some ⟨w.state, chunk, later⟩
  else (countedRound w.state w.rest).map fun r => ⟨r.1, r.2, w.later⟩

/-- The length to be counted down with bytes at hand is not negative, or it takes the counter over
`INT_MAX`. -/
def Counting (w : Walk) : Prop :=
  w.rest ≠ [] → 0 ≤ frameReader.need w.state.part ∨
    2147483647 < w.rest.length - frameReader.need w.state.part

instance (w : Walk) : Decidable w.Counting := inferInstanceAs (Decidable (_ → _))

end Walk

/-- Every length that the stream counts down on its way through the chunks takes `length` down. -/
def CountsDown (chunks : List (List UInt8)) : Prop :=
  ∀ w, Reaches Walk.next (.start chunks) w → w.Counting

section Walking

variable {s t : State Part UInt8} {rest rest' : List UInt8} {o : List Frame} {w : Walk}
  {later : List (List UInt8)}

theorem countedRound_of_round (h : frameReader.round s rest = some (t, rest', o)) :
    countedRound s rest = some (t, rest') := by
  rw [countedRound, h]

theorem got_eq_nil_of_waiting (hw : frameReader.Waiting s)
    (hneg : frameReader.need s.part < s.got.length) : s.got = [] := by
  rcases hw with hw | hw
  · exact hw
  · omega

/-- All that a round can do. -/
theorem countedRound_cases (hw : frameReader.Waiting s)
    (h : countedRound s rest = some (t, rest')) :
    (∃ o, frameReader.round s rest = some (t, rest', o)) ∨
      (s.got = [] ∧ frameReader.need s.part < 0 ∧
        2147483647 < rest.length - frameReader.need s.part ∧
        t = ⟨(frameReader.finish s.part []).1, []⟩ ∧ rest' = []) := by
  unfold countedRound at h
  split at h
  · obtain ⟨rfl, rfl⟩ := Prod.mk.inj (Option.some.inj h)
    exact Or.inl ⟨_, ‹_›⟩
  · have hneg := round_eq_none.mp ‹_›
    have hgot := got_eq_nil_of_waiting hw hneg
    split_ifs at h with hover
    obtain ⟨rfl, rfl⟩ := Prod.mk.inj (Option.some.inj h)
    rw [hgot] at hneg
    exact Or.inr ⟨hgot, hneg, hover, rfl, rfl⟩

theorem countedRound_ne_none (hw : frameReader.Waiting s)
    (h : 0 ≤ frameReader.need s.part ∨ 2147483647 < rest.length - frameReader.need s.part) :
    ∃ t rest', countedRound s rest = some (t, rest') := by
  unfold countedRound
  split
  · exact ⟨_, _, rfl⟩
  · have hneg := round_eq_none.mp ‹_›
    rw [got_eq_nil_of_waiting hw hneg] at hneg
    rw [if_pos (h.resolve_left (not_le.mpr hneg))]
    exact ⟨_, _, rfl⟩

theorem Walk.next_round (later : List (List UInt8)) (hne : rest ≠ []) (h : countedRound s rest = some (t, rest')) :
    Walk.next ⟨s, rest, later⟩ = some ⟨t, rest', later⟩ := by
  rw [Walk.next, if_neg hne, h]
  rfl

theorem waiting_of_walk {chunks : List (List UInt8)} (h : Reaches Walk.next (.start chunks) w) :
    frameReader.Waiting w.state := by
  refine Reaches.invariant (fun w => frameReader.Waiting w.state) ?_ (Or.inl rfl) h
  intro w w' hw hstep
  unfold Walk.next at hstep
  split_ifs at hstep with hrest
  · split at hstep
    · cases hstep
    · cases hstep
      exact hw
  · obtain ⟨⟨t, rest'⟩, hr, rfl⟩ := Option.map_eq_some_iff.mp hstep
    rcases countedRound_cases hw hr with ⟨o, hround⟩ | ⟨-, -, -, rfl, -⟩
    · exact waiting_round hround
    · exact Or.inl rfl

theorem walk_of_visits (later : List (List UInt8)) (hv : frameReader.Visits s rest t rest' o) :
    Reaches Walk.next ⟨s, rest, later⟩ ⟨t, rest', later⟩ := by
  induction hv with
  | refl => exact .refl
  | round hne hr _ ih => exact Reaches.next (Walk.next_round later hne (countedRound_of_round hr)) ih

/-- A chunk in which every length takes the counter down is walked to its end. -/
theorem walk_chunk (hw : frameReader.Waiting s)
    (hsafe : ∀ w, Reaches Walk.next ⟨s, rest, later⟩ w → w.Counting) :
    ∃ t, Reaches Walk.next ⟨s, rest, later⟩ ⟨t, [], later⟩ := by
  by_cases hneg : ∃ t ys o, frameReader.Visits s rest t ys o ∧ ys ≠ [] ∧ frameReader.need t.part < 0
  · -- the first negative length ends the call
    obtain ⟨t, ys, o, hv, hne, hneed⟩ := hneg
    have hreach := walk_of_visits later hv
    obtain ⟨u, rest', hr⟩ := countedRound_ne_none (waiting_of_visits hv hw) (hsafe _ hreach hne)
    have hnext := Walk.next_round later hne hr
    rcases countedRound_cases (waiting_of_visits hv hw) hr with ⟨o, hround⟩ | ⟨-, -, -, -, rfl⟩
    · have := need_of_round hround
      omega
    · exact ⟨u, hreach.tail hnext⟩
  · push Not at hneg
    obtain ⟨t, o, hr⟩ := reads_of_nonneg frameReader_ranked hw hneg
    exact ⟨t, walk_of_visits later hr⟩

/-- Chunks in which every length takes the counter down are walked one after another. -/
theorem walk_chunks {chunks before : List (List UInt8)} (h : CountsDown chunks)
    (hch : chunks = before ++ later) :
    ∃ s, Reaches Walk.next (.start chunks) ⟨s, [], later⟩ := by
  induction before using List.reverseRecOn generalizing later with
  | nil =>
    obtain rfl : chunks = later := hch
    exact ⟨fresh, .refl⟩
  | append_singleton before chunk ih =>
    rw [List.append_assoc] at hch
    obtain ⟨s, hs⟩ := ih hch
    have hnext : Reaches Walk.next (.start chunks) ⟨s, chunk, later⟩ := hs.tail rfl
    obtain ⟨t, ht⟩ := walk_chunk (waiting_of_walk hnext) fun w hw => h w (hnext.trans hw)
    exact ⟨t, hnext.trans ht⟩

end Walking

section Turns

/-- How the counters of a connection and of its parser encode a state of the frame reader, whatever
their buffers hold. -/
def Counts (loop : Loop) (c : MConnection) (s : State Part UInt8) : Prop :=
  match s.part with
  | .magic =>
    c.parseType = .magic ∧ c.magicRemain = 4 - s.got.length ∧ s.got.length < 4 ∧
      c.theParser.headerRemain = 8 ∧ c.theParser.req.lengthHeader = [] ∧ loop = .parseConnection
  | .between _ _ =>
    c.parseType = .magic ∧ c.magicRemain = 0 ∧ s.got = [] ∧
      c.theParser.headerRemain = 8 ∧ c.theParser.req.lengthHeader = [] ∧ loop = .parseConnection
  | .lengths _ _ =>
    c.parseType = .header ∧ c.magicRemain = 0 ∧ s.got.length < 8 ∧
      c.theParser.headerRemain = 8 - s.got.length ∧ c.theParser.req.lengthHeader = s.got
  | .header _ _ ls =>
    c.parseType = .rpcHeader ∧ c.magicRemain = 0 ∧
      c.theParser.rpcRemain = some (MLengthHeader.rpcHeaderLength ls - s.got.length) ∧
      c.theParser.req.lengthHeader = ls
  | .body _ _ ls _ =>
    c.parseType = .rpcContent ∧ c.magicRemain = 0 ∧
      c.theParser.rpcRemain = some (MLengthHeader.rpcBodyLength ls - s.got.length) ∧
      c.theParser.req.lengthHeader = ls

/-- A turn of the loops on bytes of the buffer, which takes `m.remain` of them. -/
structure Turned (m m' : ParseState) (t : State Part UInt8) : Prop where
  step : m.step = some m'
  id : m'.id = m.id
  buf : m'.buf = m.buf.consume m.remain
  length : m'.length = subRemain m.length m.remain
  counts : Counts m'.loop m'.conn t

variable {m : ParseState} {s t : State Part UInt8} {as : List UInt8}

theorem Counts.counter_eq (h : Counts m.loop m.conn s) :
    m.counter = frameReader.need s.part - s.got.length := by
  unfold Counts at h
  unfold ParseState.counter
  cases hp : s.part <;> rw [hp] at h <;> obtain ⟨htype, h⟩ := h <;> rw [htype]
  case magic => exact h.1
  case between => simp [h.1, h.2.1, frameReader]
  case lengths => exact h.2.2.1
  case header => simp [h.2.1, frameReader]
  case body => simp [h.2.1, frameReader]

theorem rpcContentCase_takes (m : ParseState) :
    m.rpcContentCase.id = m.id ∧ m.rpcContentCase.buf = m.buf.consume m.remain ∧
      m.rpcContentCase.length = subRemain m.length m.remain := by
  unfold ParseState.rpcContentCase
  dsimp only
  split_ifs <;> exact ⟨rfl, rfl, rfl⟩

/-- The turn stops inside the part. -/
theorem turned_short (h : Counts m.loop m.conn s) (hl : m.loop = s.part.loop) (hpos : 0 < m.length)
    (hread : m.buf.read m.remain = as) (hrem : m.remain = as.length) (hlt : m.remain < m.counter) :
    ∃ m', Turned m m' ⟨s.part, s.got ++ as⟩ := by
  have hc := h.counter_eq
  have hlen : ((s.got ++ as).length : ℤ) = s.got.length + m.remain := by
    rw [List.length_append, hrem]
    push_cast
    rfl
  unfold Counts at h
  cases hp : s.part with
  | magic =>
    rw [hp] at h hl hc
    obtain ⟨htype, hmr, hshort, hheader, hls, -⟩ := h
    have hneed : frameReader.need .magic = 4 := rfl
    have hmore : 0 < m.conn.magicRemain - m.remain := by omega
    refine ⟨m.magicCase, ?_, rfl, rfl, rfl, ?_⟩
    · simp only [ParseState.step, hl, Part.loop, if_pos hpos, htype]
    · simp only [ParseState.magicCase, if_pos hmore, Counts]
      exact ⟨htype, by omega, by omega, hheader, hls, hl⟩
  | between mg start =>
    rw [hp] at hc
    obtain ⟨-, -, hgot, -⟩ := hp ▸ h
    have hneed : frameReader.need (.between mg start) = 0 := rfl
    rw [hgot, List.length_nil] at hc
    omega
  | lengths mg start =>
    rw [hp] at h hl hc
    obtain ⟨htype, hmr, hshort, hheader, hls⟩ := h
    have hneed : frameReader.need (.lengths mg start) = 8 := rfl
    have hmore : 0 < m.conn.theParser.headerRemain - m.remain := by omega
    have hcopy := lengths_copied hls hheader hread
    refine ⟨m.headerCase, ?_, rfl, rfl, rfl, ?_⟩
    · simp only [ParseState.step, hl, Part.loop, if_pos hpos, htype]
    · simp only [ParseState.headerCase, if_pos hmore, Counts]
      refine ⟨htype, hmr, by omega, ?_, hcopy⟩
      simp only [MConnection.theParser_resetParser]
      omega
  | header mg start ls =>
    rw [hp] at h hl hc
    obtain ⟨htype, hmr, hrpc, hls⟩ := h
    have hmore : 0 < m.conn.theParser.rpcRemain.getD 0 - m.remain := by
      rw [hrpc, Option.getD_some]
      simp only [frameReader] at hc
      omega
    refine ⟨m.rpcHeaderCase, ?_, rfl, rfl, rfl, ?_⟩
    · simp only [ParseState.step, hl, Part.loop, if_pos hpos, htype]
    · simp only [ParseState.rpcHeaderCase, if_pos hmore, Counts]
      refine ⟨htype, hmr, ?_, hls⟩
      simp only [MConnection.theParser_resetParser, hrpc, Option.getD_some, Option.some.injEq]
      omega
  | body mg start ls hd =>
    rw [hp] at h hl hc
    obtain ⟨htype, hmr, hrpc, hls⟩ := h
    have hmore : 0 < m.conn.theParser.rpcRemain.getD 0 - m.remain := by
      rw [hrpc, Option.getD_some]
      simp only [frameReader] at hc
      omega
    obtain ⟨hid, hbuf, hlength⟩ := rpcContentCase_takes m
    refine ⟨m.rpcContentCase, ?_, hid, hbuf, hlength, ?_⟩
    · simp only [ParseState.step, hl, Part.loop, if_pos hpos, htype]
    · simp only [ParseState.rpcContentCase, if_pos hmore, Counts]
      refine ⟨htype, hmr, ?_, hls⟩
      simp only [MConnection.theParser_resetParser, hrpc, Option.getD_some, Option.some.injEq]
      omega

/-- The turn takes what the part still lacks, which a negative length makes negative. -/
theorem turned_full (h : Counts m.loop m.conn s) (hl : m.loop = s.part.loop) (hpos : 0 < m.length)
    (hread : m.buf.read m.remain = as) (hrem : m.remain = m.counter) :
    ∃ m', Turned m m' ⟨(frameReader.finish s.part (s.got ++ as)).1, []⟩ := by
  have hc := h.counter_eq
  unfold Counts at h
  cases hp : s.part with
  | magic =>
    rw [hp] at h hl hc
    obtain ⟨htype, hmr, -, hheader, hls, -⟩ := h
    have hneed : frameReader.need .magic = 4 := rfl
    have hzero : m.conn.magicRemain - m.remain = 0 := by omega
    refine ⟨m.magicCase, ?_, rfl, rfl, rfl, ?_⟩
    · simp only [ParseState.step, hl, Part.loop, if_pos hpos, htype]
    · simp only [ParseState.magicCase, hzero, lt_irrefl, if_false, frameReader, Counts]
      exact ⟨rfl, rfl, by simp, hheader, hls⟩
  | between mg start =>
    rw [hp] at h hl hc
    obtain ⟨htype, hmr, hgot, hheader, hls, -⟩ := h
    have hneed : frameReader.need (.between mg start) = 0 := rfl
    rw [hgot, List.length_nil] at hc
    have hzero : m.conn.magicRemain - m.remain = 0 := by omega
    refine ⟨m.magicCase, ?_, rfl, rfl, rfl, ?_⟩
    · simp only [ParseState.step, hl, Part.loop, if_pos hpos, htype]
    · simp only [ParseState.magicCase, hzero, lt_irrefl, if_false, frameReader, Counts]
      exact ⟨rfl, rfl, by simp, hheader, hls⟩
  | lengths mg start =>
    rw [hp] at h hl hc
    obtain ⟨htype, hmr, -, hheader, hls⟩ := h
    have hneed : frameReader.need (.lengths mg start) = 8 := rfl
    have hzero : m.conn.theParser.headerRemain - m.remain = 0 := by omega
    have hcopy := lengths_copied hls hheader hread
    refine ⟨m.headerCase, ?_, rfl, rfl, rfl, ?_⟩
    · simp only [ParseState.step, hl, Part.loop, if_pos hpos, htype]
    · simp only [ParseState.headerCase, hzero, lt_irrefl, if_false, frameReader, Counts]
      refine ⟨rfl, hmr, ?_, hcopy⟩
      simp [MRequest.rpcHeaderLength, hcopy]
  | header mg start ls =>
    rw [hp] at h hl hc
    obtain ⟨htype, hmr, hrpc, hls⟩ := h
    have hzero : m.conn.theParser.rpcRemain.getD 0 - m.remain = 0 := by
      rw [hrpc, Option.getD_some]
      simp only [frameReader] at hc
      omega
    refine ⟨m.rpcHeaderCase, ?_, rfl, rfl, rfl, ?_⟩
    · simp only [ParseState.step, hl, Part.loop, if_pos hpos, htype]
    · simp only [ParseState.rpcHeaderCase, hzero, lt_irrefl, if_false, frameReader, Counts]
      refine ⟨rfl, hmr, ?_, hls⟩
      simp [MRequest.rpcBodyLength, hls]
  | body mg start ls hd =>
    rw [hp] at h hl hc
    obtain ⟨htype, hmr, hrpc, -⟩ := h
    have hzero : m.conn.theParser.rpcRemain.getD 0 - m.remain = 0 := by
      rw [hrpc, Option.getD_some]
      simp only [frameReader] at hc
      omega
    obtain ⟨hid, hbuf, hlength⟩ := rpcContentCase_takes m
    refine ⟨m.rpcContentCase, ?_, hid, hbuf, hlength, ?_⟩
    · simp only [ParseState.step, hl, Part.loop, if_pos hpos, htype]
    · simp only [ParseState.rpcContentCase, hzero, lt_irrefl, if_false, frameReader, Counts]
      exact ⟨rfl, hmr, trivial, rfl, rfl, trivial⟩

end Turns

section Calls

/-- A state of a call stands for a state of the frame reader with `rest` unread. Once the counter
has gone around, the buffer does not matter any more. -/
structure Counted (m : ParseState) (s : State Part UInt8) (rest : List UInt8) : Prop where
  counts : Counts m.loop m.conn s
  window : rest ≠ [] →
    ∃ store pos, Window store (fun _ => 0) m.id m.buf m.length rest pos
  ended : rest = [] → m.length ≤ 0
  int : rest.length ≤ 2147483647

variable {m m' : ParseState} {s t : State Part UInt8} {rest rest' : List UInt8}

theorem need_int (p : Part) : -2147483648 ≤ frameReader.need p := by
  cases p with
  | magic | between _ _ | lengths _ _ => simp [frameReader]
  | header _ _ ls => exact LittleEndian.le_toInt32 _
  | body _ _ ls _ => exact LittleEndian.le_toInt32 _

theorem Counted.length_eq (h : Counted m s rest) (hne : rest ≠ []) : m.length = rest.length := by
  obtain ⟨store, pos, hw⟩ := h.window hne
  exact hw.count

theorem Counted.length_pos (h : Counted m s rest) (hne : rest ≠ []) : 0 < m.length := by
  have hpos := List.length_pos_iff.mpr hne
  rw [h.length_eq hne]
  omega

/-- What a turn does on a negative length. -/
theorem Counted.turned_negative (h : Counted m s rest) (hne : rest ≠ []) (hl : m.loop = s.part.loop)
    (hgot : s.got = []) (hneg : frameReader.need s.part < 0) :
    ∃ m', Turned m m' ⟨(frameReader.finish s.part []).1, []⟩ ∧
      m'.length = (rest.length - frameReader.need s.part : ℤ).bmod 4294967296 := by
  have hpos := h.length_pos hne
  have hc := h.counts.counter_eq
  rw [hgot, List.length_nil, Nat.cast_zero, sub_zero] at hc
  have hrem : m.remain = m.counter := by
    rw [m.remain_eq_min]
    omega
  have hread : m.buf.read m.remain = [] := slice_zero_size _ _ (by omega)
  obtain ⟨m', hturn⟩ := turned_full h.counts hl hpos hread hrem
  rw [hgot, List.append_nil] at hturn
  refine ⟨m', hturn, ?_⟩
  rw [hturn.length, hrem, hc, h.length_eq hne]
  exact if_neg (not_le.mpr hneg)

/-- A round is one iteration of the loop that works on the part. -/
theorem counted_round (h : Counted m s rest) (hw : frameReader.Waiting s) (hne : rest ≠ [])
    (hl : m.loop = s.part.loop) (hr : countedRound s rest = some (t, rest')) :
    ∃ m', m.step = some m' ∧ Counted m' t rest' ∧ m'.length ≤ m.length := by
  have hpos := h.length_pos hne
  have hlen := h.length_eq hne
  have hint := h.int
  rcases countedRound_cases hw hr with ⟨o, hround⟩ | ⟨hgot, hneg, hover, rfl, rfl⟩
  · obtain ⟨store, pos, hwin⟩ := h.window hne
    have hc := h.counts.counter_eq
    obtain ⟨as, rfl, hcase⟩ := round_cases hround
    rw [List.length_append] at hlen hint
    push_cast at hlen
    have hrem : m.remain = as.length := by
      rw [m.remain_eq_min]
      rcases hcase with ⟨hlt, rfl, -⟩ | ⟨heq, -⟩
      · rw [List.length_nil] at hlen
        omega
      · omega
    have hread : m.buf.read m.remain = as := by rw [hrem, hwin.read]
    obtain ⟨m', hturn⟩ : ∃ m', Turned m m' t := by
      rcases hcase with ⟨hlt, -, rfl, -⟩ | ⟨heq, rfl, -⟩
      · exact turned_short h.counts hl hpos hread hrem (by omega)
      · exact turned_full h.counts hl hpos hread (by omega)
    have hlength : m'.length = m.length - as.length := by
      rw [hturn.length, hrem, subRemain_natCast]
    refine ⟨m', hturn.step, ⟨hturn.counts, ?_, ?_, by omega⟩, by omega⟩
    · intro _
      refine ⟨store, pos + as.length, ?_⟩
      rw [hturn.id, hturn.buf, hlength, hrem]
      exact hwin.take
    · rintro rfl
      rw [hlength, hlen, List.length_nil]
      omega
  · -- the counter has gone around
    obtain ⟨m', hturn, hlength⟩ := h.turned_negative hne hl hgot hneg
    have hle := need_int s.part
    have haround : m'.length < 0 := by
      rw [hlength, Int.bmod_def]
      omega
    exact ⟨m', hturn.step, ⟨hturn.counts, fun hnil => absurd rfl hnil, fun _ => haround.le, by simp⟩,
      by omega⟩

/-- A negative length that the counter has room for makes it grow. -/
theorem counted_grows (h : Counted m s rest) (hw : frameReader.Waiting s) (hne : rest ≠ [])
    (hl : m.loop = s.part.loop) (hneg : frameReader.need s.part < 0)
    (hroom : rest.length - frameReader.need s.part ≤ 2147483647) :
    ∃ m', m.step = some m' ∧ m.length < m'.length := by
  have hgot := got_eq_nil_of_waiting hw (by omega)
  obtain ⟨m', hturn, hlength⟩ := h.turned_negative hne hl hgot hneg
  refine ⟨m', hturn.step, ?_⟩
  rw [hlength, h.length_eq hne, Int.bmod_eq_of_le (by omega) (by omega)]
  omega

theorem Counts.of_loop {c c' : MConnection} {l l' : Loop} (h : Counts l c s)
    (hl : s.part.loop = .splitMessage) (hc : c'.parseType = c.parseType ∧
      c'.magicRemain = c.magicRemain ∧ c'.theParser = c.theParser) : Counts l' c' s := by
  obtain ⟨htype, hmr, hthe⟩ := hc
  unfold Counts at h ⊢
  cases hp : s.part <;> rw [hp] at hl <;> cases hl <;> simpa only [hp, htype, hmr, hthe] using h

theorem Counts.loop_of_magic {c : MConnection} {l : Loop} (h : Counts l c s)
    (hl : s.part.loop = .parseConnection) : l = .parseConnection := by
  unfold Counts at h
  cases hp : s.part <;> rw [hp] at h hl
  · exact h.2.2.2.2.2
  · exact h.2.2.2.2.2
  all_goals cases hl

theorem Counts.parseType_ne_magic {c : MConnection} {l : Loop} (h : Counts l c s)
    (hl : s.part.loop = .splitMessage) : c.parseType ≠ .magic := by
  unfold Counts at h
  cases hp : s.part <;> rw [hp] at h hl
  · cases hl
  · cases hl
  all_goals
    rw [h.1]
    exact fun h => nomatch h

/-- From the head of `parse_connection` a part of a message is handed to `SplitMessage`. -/
theorem counted_enter (h : Counted m s rest) (hne : rest ≠ []) (hl : m.loop ≠ s.part.loop) :
    ∃ m', m.step = some m' ∧ Counted m' s rest ∧ m'.loop = s.part.loop ∧ m'.length = m.length := by
  have hsplit : s.part.loop = .splitMessage := by
    cases hs : s.part.loop with
    | parseConnection => exact absurd ((h.counts.loop_of_magic hs).trans hs.symm) hl
    | splitMessage => rfl
  have hm : m.loop = .parseConnection := by
    cases hm : m.loop with
    | parseConnection => rfl
    | splitMessage => exact absurd (hm.trans hsplit.symm) hl
  have htype := h.counts.parseType_ne_magic hsplit
  refine ⟨m.enter, ?_, ⟨h.counts.of_loop hsplit ⟨rfl, rfl, rfl⟩, h.window, h.ended, h.int⟩,
    hsplit.symm, rfl⟩
  simp only [ParseState.step, hm, if_pos (h.length_pos hne)]

/-- With nothing left to count, `SplitMessage` returns to `parse_connection`, and that returns. -/
theorem counted_leave (h : Counted m s []) :
    (m.loop = .parseConnection ∧ m.step = none) ∨
      ∃ m', m.step = some m' ∧ Counted m' s [] ∧ m'.loop = .parseConnection ∧
        m'.length = m.length := by
  have hend : ¬ 0 < m.length := not_lt.mpr (h.ended rfl)
  cases hm : m.loop with
  | parseConnection => exact Or.inl ⟨rfl, by simp only [ParseState.step, hm, if_neg hend]⟩
  | splitMessage =>
    refine Or.inr ⟨{ m with loop := .parseConnection }, ?_, ⟨?_, h.window, h.ended, h.int⟩, rfl, rfl⟩
    · simp only [ParseState.step, hm, if_neg hend]
    · cases hs : s.part.loop with
      | parseConnection =>
        rw [h.counts.loop_of_magic hs] at hm
        cases hm
      | splitMessage => exact h.counts.of_loop hs ⟨rfl, rfl, rfl⟩

/-- A call with nothing left to count returns. -/
theorem returns_of_counted (h : Counted m s []) :
    ∃ m', Returns ParseState.step m m' ∧ Counts .parseConnection m'.conn s := by
  rcases counted_leave h with ⟨hl, hnone⟩ | ⟨m', hstep, h', hl', -⟩
  · exact ⟨m, ⟨.refl, hnone⟩, hl ▸ h.counts⟩
  · rcases counted_leave h' with ⟨-, hnone⟩ | ⟨m₂, hstep₂, -⟩
    · exact ⟨m', ⟨Reaches.next hstep .refl, hnone⟩, hl' ▸ h'.counts⟩
    · have hend : ¬ 0 < m'.length := not_lt.mpr (h'.ended rfl)
      simp only [ParseState.step, hl', if_neg hend] at hstep₂
      cases hstep₂

end Calls

section Positions

variable {fd : ℤ} {chunks before : List (List UInt8)} {chunk : List UInt8} {conn : MConnection}
  {s : State Part UInt8} {m : ParseState} {w : Walk} {rs : List (List MRequest)}

/-- Between two calls: the chunks before `later` have been fed. -/
def Between (fd : ℤ) (chunks : List (List UInt8)) (s : State Part UInt8)
    (later : List (List UInt8)) : Prop :=
  ∃ before conn rs, chunks = before ++ later ∧ Feeds 0 (.new fd) before conn rs ∧
    Counts .parseConnection conn s

/-- Inside a call: a state of it stands for `s` with `rest` of the chunk unread. -/
def Within (fd : ℤ) (chunks : List (List UInt8)) (s : State Part UInt8) (rest : List UInt8)
    (later : List (List UInt8)) (m : ParseState) : Prop :=
  ∃ before chunk conn rs, chunks = before ++ chunk :: later ∧ Feeds 0 (.new fd) before conn rs ∧
    Reaches ParseState.step (.feed conn before.length chunk) m ∧ Counted m s rest

theorem Within.visited {rest : List UInt8} {later : List (List UInt8)}
    (h : Within fd chunks s rest later m) : Visited fd chunks m := by
  obtain ⟨before, chunk, conn, rs, hch, hfeeds, hreach, -⟩ := h
  exact ⟨before, chunk, later, conn, rs, hch, hfeeds, hreach⟩

theorem Within.counted {rest : List UInt8} {later : List (List UInt8)}
    (h : Within fd chunks s rest later m) : Counted m s rest := by
  obtain ⟨before, chunk, conn, rs, -, -, -, hm⟩ := h
  exact hm

theorem counts_fresh : Counts .parseConnection (.new fd) fresh :=
  ⟨rfl, rfl, by simp [fresh], rfl, rfl, rfl⟩

/-- A call begins with the whole chunk unread. -/
theorem counted_feed (h : Counts .parseConnection conn s) (hint : chunk.length ≤ 2147483647) :
    Counted (.feed conn before.length chunk) s chunk := by
  refine ⟨h, ?_, ?_, hint⟩
  · intro _
    refine ⟨fun _ => chunk, 0, rfl, le_rfl, ?_, rfl, ?_, rfl⟩
    · simp [ParseState.feed, ParseState.call, MBuffer.ofChunk]
    · simp [ParseState.feed, ParseState.call, MBuffer.ofChunk]
  · rintro rfl
    exact le_rfl

/-- What is left of a chunk is used up: the call returns. -/
theorem Within.between {later : List (List UInt8)} (h : Within fd chunks s [] later m) :
    Between fd chunks s later := by
  obtain ⟨before, chunk, conn, rs, rfl, hfeeds, hreach, hm⟩ := h
  obtain ⟨m', ⟨hreach', hend⟩, hcounts⟩ := returns_of_counted hm
  have hcall : Returns ParseState.step (.feed conn (0 + before.length) chunk) m' := by
    rw [Nat.zero_add]
    exact ⟨hreach.trans hreach', hend⟩
  exact ⟨before ++ [chunk], m'.conn, rs ++ [m'.reqs], by simp, hfeeds.snoc hcall, hcounts⟩

/-- The code follows the walk: between two chunks it is between two calls, and otherwise a state
of the call stands for what is left of the chunk. -/
def Tracks (fd : ℤ) (chunks : List (List UInt8)) (w : Walk) : Prop :=
  (w.rest = [] → Between fd chunks w.state w.later) ∧
    (w.rest ≠ [] → ∃ m, Within fd chunks w.state w.rest w.later m)

theorem Within.tracks (h : Within fd chunks w.state w.rest w.later m) : Tracks fd chunks w := by
  refine ⟨?_, fun _ => ⟨m, h⟩⟩
  intro hnil
  rw [hnil] at h
  exact h.between

/-- A state of the call that has been brought to the loop which works on the part. -/
theorem Within.aligned (h : Within fd chunks w.state w.rest w.later m) (hne : w.rest ≠ []) :
    ∃ m', Within fd chunks w.state w.rest w.later m' ∧ m'.loop = w.state.part.loop := by
  by_cases hl : m.loop = w.state.part.loop
  · exact ⟨m, h, hl⟩
  · obtain ⟨before, chunk, conn, rs, hch, hfeeds, hreach, hm⟩ := h
    obtain ⟨m', hstep, hm', hl', -⟩ := counted_enter hm hne hl
    exact ⟨m', ⟨before, chunk, conn, rs, hch, hfeeds, hreach.tail hstep, hm'⟩, hl'⟩

theorem tracks_of_walk (fd : ℤ) (hint : ∀ chunk ∈ chunks, chunk.length ≤ 2147483647)
    (h : Reaches Walk.next (.start chunks) w) : Tracks fd chunks w := by
  induction h with
  | refl =>
    have hstart : Between fd chunks fresh chunks := ⟨[], .new fd, [], rfl, .nil _ _, counts_fresh⟩
    exact ⟨fun _ => hstart, fun hne => absurd rfl hne⟩
  | @tail w w' hreach hstep ih =>
    unfold Walk.next at hstep
    split_ifs at hstep with hrest
    · cases hlater : w.later with
      | nil =>
        rw [hlater] at hstep
        cases hstep
      | cons chunk later =>
        rw [hlater] at hstep
        cases hstep
        -- the next call begins
        obtain ⟨before, conn, rs, hch, hfeeds, hcounts⟩ := ih.1 hrest
        rw [hlater] at hch
        have hle := hint chunk (by rw [hch]; simp)
        exact Within.tracks
          ⟨before, chunk, conn, rs, hch, hfeeds, .refl, counted_feed hcounts hle⟩
    · obtain ⟨⟨t, rest'⟩, hr, rfl⟩ := Option.map_eq_some_iff.mp hstep
      obtain ⟨m, hm⟩ := ih.2 hrest
      obtain ⟨m₁, ⟨before, chunk, conn, rs, hch, hfeeds, hreach₁, hm₁⟩, hl⟩ := hm.aligned hrest
      obtain ⟨m', hstep', hm', -⟩ := counted_round hm₁ (waiting_of_walk hreach) hrest hl hr
      exact Within.tracks (m := m')
        ⟨before, chunk, conn, rs, hch, hfeeds, hreach₁.tail hstep', hm'⟩

/-- Where every length takes the counter down, a step of a call stays with the walk and leaves
`length` as it is or lowers it. -/
theorem counted_step {m' : ParseState} (h : CountsDown chunks)
    (hw : Reaches Walk.next (.start chunks) w) (hm : Counted m w.state w.rest)
    (hstep : m.step = some m') :
    ∃ w', Reaches Walk.next (.start chunks) w' ∧ Counted m' w'.state w'.rest ∧
      m'.length ≤ m.length := by
  by_cases hne : w.rest = []
  · rw [hne] at hm
    rcases counted_leave hm with ⟨-, hnone⟩ | ⟨m₁, hstep₁, hm₁, -, hlen⟩
    · rw [hstep] at hnone
      cases hnone
    · rw [hstep] at hstep₁
      cases hstep₁
      exact ⟨w, hw, by rwa [hne], hlen.le⟩
  by_cases hl : m.loop = w.state.part.loop
  · have hwait := waiting_of_walk hw
    obtain ⟨t, rest', hr⟩ := countedRound_ne_none hwait (h w hw hne)
    obtain ⟨m₁, hstep₁, hm₁, hlen⟩ := counted_round hm hwait hne hl hr
    rw [hstep] at hstep₁
    cases hstep₁
    exact ⟨⟨t, rest', w.later⟩, hw.tail (Walk.next_round w.later hne hr), hm₁, hlen⟩
  · obtain ⟨m₁, hstep₁, hm₁, -, hlen⟩ := counted_enter hm hne hl
    rw [hstep] at hstep₁
    cases hstep₁
    exact ⟨w, hw, hm₁, hlen.le⟩

/-- Where every length takes the counter down, every state of the calls stands for one of the walk. -/
theorem counted_of_visited (hint : ∀ chunk ∈ chunks, chunk.length ≤ 2147483647)
    (h : CountsDown chunks) (hv : Visited fd chunks m) :
    ∃ w, Reaches Walk.next (.start chunks) w ∧ Counted m w.state w.rest := by
  obtain ⟨before, chunk, later, conn, rs, hch, hfeeds, hreach⟩ := hv
  obtain ⟨s, hs⟩ := walk_chunks h hch
  obtain ⟨before', conn', rs', hch', hfeeds', hcounts⟩ :=
    (tracks_of_walk fd hint hs).1 rfl
  obtain rfl := List.append_cancel_right (hch ▸ hch')
  obtain ⟨rfl, rfl⟩ := hfeeds.unique hfeeds'
  have hle := hint chunk (by rw [hch]; simp)
  induction hreach with
  | refl => exact ⟨_, hs.tail rfl, counted_feed hcounts hle⟩
  | tail _ hstep ih =>
    obtain ⟨w, hw, hm⟩ := ih
    obtain ⟨w', hw', hm', -⟩ := counted_step h hw hm hstep
    exact ⟨w', hw', hm'⟩

end Positions

section Termination

/-- Every call on the chunks returns. -/
def CallsReturn (fd : ℤ) (chunks : List (List UInt8)) : Prop :=
  ∃ conn rs, Feeds 0 (.new fd) chunks conn rs

/-- No iteration of the two loops increases `length`. -/
def LengthNeverGrows (fd : ℤ) (chunks : List (List UInt8)) : Prop :=
  ∀ m m', Visited fd chunks m → m.step = some m' → m'.length ≤ m.length

/-- Calls return and `length` never grows exactly when every length that is counted down takes it
down: none is negative, unless it makes the counter go around. -/
theorem calls_return_iff (fd : ℤ) (chunks : List (List UInt8))
    (hint : ∀ chunk ∈ chunks, chunk.length ≤ 2147483647) :
    CallsReturn fd chunks ∧ LengthNeverGrows fd chunks ↔ CountsDown chunks := by
  constructor
  · rintro ⟨-, hgrow⟩ w hw hne
    obtain ⟨m, hm⟩ := (tracks_of_walk fd hint hw).2 hne
    obtain ⟨m₁, hm₁, hl⟩ := hm.aligned hne
    by_contra hcon
    push Not at hcon
    -- this length would make the counter grow
    obtain ⟨m', hstep, hlt⟩ := counted_grows hm₁.counted (waiting_of_walk hw) hne hl hcon.1 hcon.2
    have hle := hgrow m₁ m' hm₁.visited hstep
    omega
  · intro h
    refine ⟨?_, ?_⟩
    · have hall : chunks = chunks ++ [] := (List.append_nil chunks).symm
      obtain ⟨s, hs⟩ := walk_chunks h hall
      obtain ⟨before, conn, rs, hch, hfeeds, -⟩ := (tracks_of_walk fd hint hs).1 rfl
      rw [List.append_nil] at hch
      exact ⟨conn, rs, hch ▸ hfeeds⟩
    · intro m m' hv hstep
      obtain ⟨w, hw, hm⟩ := counted_of_visited hint h hv
      obtain ⟨-, -, -, hle⟩ := counted_step h hw hm hstep
      exact hle

/-- "peng", the header length `INT_MIN`, a body length of 0, and one more byte. -/
def aroundChunk : List UInt8 := MAGIC ++ [0, 0, 0, 0x80, 0, 0, 0, 0] ++ [0x2a]

/-- The counter goes around on the first chunk, whose last byte is lost; the second one is counted
down as if the header had been read. -/
theorem calls_return_iff_around :
    CallsReturn 7 [aroundChunk, [0x2a]] ∧ LengthNeverGrows 7 [aroundChunk, [0x2a]] := by
  apply (calls_return_iff 7 [aroundChunk, [0x2a]] (by decide)).mpr
  have htest : testAll Walk.next (fun w => decide w.Counting) 20
      (.start [aroundChunk, [0x2a]]) = true := by decide
  intro w hw
  have hcounting := test_of_reaches htest hw
  exact of_decide_eq_true hcounting

/-- The state in which `parse_connection` on `hangingChunk` finds itself after each request. -/
def hangingState (fd : ℤ) (reqs : List MRequest) : ParseState where
  loop := .parseConnection
  conn := ⟨fd, MAGIC, 0, .magic, some ⟨8, some 0, .new⟩, .new⟩
  id := 0
  buf := (MBuffer.ofChunk hangingChunk).consume 4
  length := 9
  reqs := reqs

/-- The state with earlier requests in its queue. -/
def ParseState.queued (reqs : List MRequest) (m : ParseState) : ParseState :=
  { m with reqs := reqs ++ m.reqs }

/-- The loops never look at the requests already queued. -/
theorem step_queued (reqs : List MRequest) (m : ParseState) :
    (m.queued reqs).step = m.step.map (ParseState.queued reqs) := by
  obtain ⟨loop, conn, id, buf, length, rs⟩ := m
  unfold ParseState.step
  by_cases hpos : 0 < length
  · cases loop
    · cases ht : conn.parseType <;>
        simp [ParseState.queued, hpos, ht, ParseState.magicCase, ParseState.enter, ParseState.take,
          ParseState.remain]
    · cases ht : conn.parseType <;>
        simp [ParseState.queued, hpos, ht, ParseState.headerCase, ParseState.rpcHeaderCase,
          ParseState.rpcContentCase, ParseState.take, ParseState.remain]
      split_ifs <;> simp
  · cases loop <;> simp [ParseState.queued, hpos]

theorem iterate_queued (reqs : List MRequest) (n : ℕ) (m : ParseState) :
    iterate ParseState.step n (m.queued reqs) =
      (iterate ParseState.step n m).map (ParseState.queued reqs) := by
  induction n generalizing m with
  | zero => rfl
  | succ n ih =>
    simp only [iterate, step_queued]
    cases m.step with
    | none => rfl
    | some m' => exact ih m'

/-- The request that `hangingChunk` yields again and again. -/
def hangingRequest : MRequest where
  lengthHeader := [0xf8, 0xff, 0xff, 0xff, 0, 0, 0, 0]
  rpcHeaderBuf := ⟨[⟨⟨0, 12, -8⟩⟩], 0, none, 0, 0, -8⟩
  rpcBodyBuf := ⟨[⟨⟨0, 4, 0⟩⟩], 0, none, 0, 0, 0⟩

theorem hangingState_cycles (reqs : List MRequest) : ∃ m,
    (hangingState 7 reqs).step = some m ∧
      Reaches ParseState.step m (hangingState 7 (reqs ++ [hangingRequest])) := by
  -- evaluated with an empty queue, and lifted to the queue at hand
  have hcycle : iterate ParseState.step 5 (hangingState 7 []) =
      some (hangingState 7 [hangingRequest]) := by decide
  have hlift := iterate_queued reqs 5 (hangingState 7 [])
  rw [hcycle] at hlift
  simp only [ParseState.queued, hangingState, List.append_nil, Option.map_some] at hlift
  rw [iterate] at hlift
  obtain ⟨m, hm, hrest⟩ := Option.bind_eq_some_iff.mp hlift
  exact ⟨m, hm, reaches_of_iterate hrest⟩

theorem hangingChunk_hangs : ¬ CallsReturn 7 [hangingChunk] ∧ ¬ LengthNeverGrows 7 [hangingChunk] := by
  refine ⟨?_, ?_⟩
  · rintro ⟨conn, rs, hfeeds⟩
    cases hfeeds with
    | cons hcall _ =>
      have hstart : Reaches ParseState.step (.feed (.new 7) 0 hangingChunk)
          (hangingState 7 [hangingRequest]) := by
        have hfive : iterate ParseState.step 5 (.feed (.new 7) 0 hangingChunk) =
            some (hangingState 7 [hangingRequest]) := by decide
        exact reaches_of_iterate hfive
      have hcycle : ∀ m, (∃ reqs, m = hangingState 7 reqs) → ∃ m₁ m₂, m.step = some m₁ ∧
          Reaches ParseState.step m₁ m₂ ∧ ∃ reqs, m₂ = hangingState 7 reqs := by
        rintro m ⟨reqs, rfl⟩
        obtain ⟨m₁, hstep, hreach⟩ := hangingState_cycles reqs
        exact ⟨m₁, _, hstep, hreach, _, rfl⟩
      exact not_returns_of_cycle hcycle ⟨_, rfl⟩ ⟨_, hcall.of_reaches hstart⟩
  · intro hgrow
    -- the fourth iteration takes -8 bytes from `length`
    obtain ⟨m, hm⟩ : ∃ m, iterate ParseState.step 3 (.feed (.new 7) 0 hangingChunk) = some m :=
      ⟨_, rfl⟩
    obtain ⟨m', hm'⟩ : ∃ m', m.step = some m' := by
      cases hm
      exact ⟨_, rfl⟩
    have hle := hgrow m m' (visited_call (reaches_of_iterate hm)) hm'
    cases hm
    cases hm'
    revert hle
    decide

end Termination

end MgRaffle.MgServer
