import MgRaffle.MgServer.Frame

namespace MgRaffle.MgServer
open Collector

section ReadBuf

/-- A read buffer to which only `append` has been applied, and the bytes that it holds. -/
structure Holds (store : BufId → List UInt8) (r : MReadBuf) (bs : List UInt8) : Prop where
  atStart : r.curIt = 0 ∧ r.curPos = 0
  bytes : r.pending store = bs
  within : ∀ g ∈ r.bufList, g.Within store
  total : r.totalBytes = bs.length

variable {store : BufId → List UInt8} {r : MReadBuf} {bs : List UInt8}

theorem holds_new : Holds store .new [] := ⟨⟨rfl, rfl⟩, rfl, by simp [MReadBuf.new], rfl⟩

theorem Holds.append (h : Holds store r bs) {g : MBufferGuard} {as : List UInt8}
    (hi : 0 ≤ g.index) (hs : g.size = as.length)
    (hlen : g.index + g.size ≤ (store g.buf).length)
    (hbytes : slice (store g.buf) g.index g.size = as) : Holds store (r.append g) (bs ++ as) := by
  obtain ⟨hit, hpos⟩ := h.atStart
  refine ⟨⟨rfl, hpos⟩, ?_, ?_, ?_⟩
  · rw [MReadBuf.pending_append store hit, h.bytes, hpos, add_zero, sub_zero, hbytes]
  · intro g' hg'
    rcases List.mem_append.mp hg' with hg' | hg'
    · exact h.within g' hg'
    · rw [List.mem_singleton.mp hg']
      exact ⟨hi, by omega, hlen⟩
  · rw [MReadBuf.append, List.length_append, h.total, hs]
    push_cast
    rfl

end ReadBuf

/-- The offset in the stream at which the last body guard of a request ends, when the buffer
`id` holds the bytes of the stream from offset `base id` on. -/
def MRequest.stop (base : BufId → ℕ) (r : MRequest) : ℤ :=
  match r.rpcBodyBuf.bufList.getLast? with
  | some g => base g.buf + g.index + g.size
  | none => 0

/-- The request that stands for a frame. -/
structure IsRequest (store : BufId → List UInt8) (base : BufId → ℕ) (r : MRequest) (f : Frame) :
    Prop where
  lengths : r.lengthHeader = f.lengths
  header : Holds store r.rpcHeaderBuf f.header
  body : Holds store r.rpcBodyBuf f.body
  stop : r.stop base = f.stop

/-- How the fields of a connection and of its parser encode a state of the frame reader. -/
def InPart (store : BufId → List UInt8) (loop : Loop) (c : MConnection) (s : State Part UInt8) :
    Prop :=
  match s.part with
  | .magic =>
    c.parseType = .magic ∧ c.magicRemain = 4 - s.got.length ∧ s.got.length < 4 ∧
      c.magic = s.got ++ List.replicate (4 - s.got.length) 0 ∧ c.theParser = .new ∧
      loop = .parseConnection
  | .between m _ =>
    c.parseType = .magic ∧ c.magicRemain = 0 ∧ c.magic = m ∧ s.got = [] ∧
      c.theParser = ⟨8, some 0, .new⟩ ∧ loop = .parseConnection
  | .lengths m start =>
    c.parseType = .header ∧ c.magicRemain = 0 ∧ c.magic = m ∧ s.got.length < 8 ∧
      c.theParser =
        ⟨8 - s.got.length, if start = 0 then none else some 0, ⟨s.got, .new, .new⟩⟩
  | .header m _ ls =>
    c.parseType = .rpcHeader ∧ c.magicRemain = 0 ∧ c.magic = m ∧
      ∃ buf, c.theParser = ⟨0, some (MLengthHeader.rpcHeaderLength ls - s.got.length),
        ⟨ls, buf, .new⟩⟩ ∧ Holds store buf s.got
  | .body m _ ls h =>
    c.parseType = .rpcContent ∧ c.magicRemain = 0 ∧ c.magic = m ∧
      ∃ hbuf buf, c.theParser = ⟨0, some (MLengthHeader.rpcBodyLength ls - s.got.length),
        ⟨ls, hbuf, buf⟩⟩ ∧ Holds store hbuf h ∧ Holds store buf s.got

/-- The loop that works on a part. -/
def Part.loop : Part → Loop
  | .magic | .between _ _ => .parseConnection
  | .lengths _ _ | .header _ _ _ | .body _ _ _ _ => .splitMessage

/-- The buffer and the counter of a call: `rest` is what is left of the buffer, and the cursor
stands at offset `pos` of the stream. -/
structure Window (store : BufId → List UInt8) (base : BufId → ℕ) (id : BufId) (buf : MBuffer)
    (length : ℤ) (rest : List UInt8) (pos : ℕ) : Prop where
  storage : buf.storage = store id
  cursor : 0 ≤ buf.curIndex
  left : rest = (store id).drop buf.curIndex.toNat
  count : length = rest.length
  inside : buf.curIndex + length = (store id).length
  offset : (base id : ℤ) + buf.curIndex = pos

structure Sim (store : BufId → List UInt8) (base : BufId → ℕ) (m : ParseState)
    (s : State Part UInt8) (rest : List UInt8) (fs : List Frame) : Prop where
  window : Window store base m.id m.buf m.length rest (position s)
  wf : s.part.Wf
  inPart : InPart store m.loop m.conn s
  reqs : List.Forall₂ (IsRequest store base) m.reqs fs

section Windows

variable {store : BufId → List UInt8} {base : BufId → ℕ} {id : BufId} {buf : MBuffer} {length : ℤ}
  {as rest : List UInt8} {pos : ℕ}

theorem Window.take (w : Window store base id buf length (as ++ rest) pos) :
    Window store base id (buf.consume as.length) (length - as.length) rest (pos + as.length) := by
  have hc := w.cursor
  have hl := w.count
  have hi := w.inside
  have hp := w.offset
  have hidx : (buf.curIndex + as.length).toNat = buf.curIndex.toNat + as.length := by omega
  refine ⟨w.storage, ?_, ?_, ?_, ?_, ?_⟩
  · simp only [MBuffer.consume]
    omega
  · simp only [MBuffer.consume]
    rw [hidx, ← List.drop_drop, ← w.left, List.drop_left]
  · rw [hl, List.length_append]
    push_cast
    ring
  · simp only [MBuffer.consume]
    omega
  · simp only [MBuffer.consume]
    push_cast
    omega

theorem Window.slice (w : Window store base id buf length (as ++ rest) pos) :
    slice (store id) buf.curIndex as.length = as := by
  rw [slice_eq_take _ w.left, Int.toNat_natCast, List.take_left]

theorem Window.read (w : Window store base id buf length (as ++ rest) pos) :
    buf.read as.length = as := by
  rw [MBuffer.read, w.storage, w.slice]

theorem Window.guard_within (w : Window store base id buf length (as ++ rest) pos) :
    0 ≤ buf.curIndex ∧ buf.curIndex + as.length ≤ (store id).length := by
  have hl := w.count
  have hi := w.inside
  rw [List.length_append] at hl
  push_cast at hl
  exact ⟨w.cursor, by omega⟩

/-- A guard built at the cursor holds the bytes taken there. -/
theorem Window.holds_append (w : Window store base id buf length (as ++ rest) pos)
    {r : MReadBuf} {bs : List UInt8} (h : Holds store r bs) :
    Holds store (r.append (.new id buf as.length)) (bs ++ as) :=
  h.append w.guard_within.1 rfl w.guard_within.2 w.slice

end Windows

@[simp] theorem MConnection.theParser_resetParser (c : MConnection) (p : MParser) :
    (c.resetParser p).theParser = p := rfl

@[simp] theorem MConnection.theParser_changeParseType (c : MConnection) (t : ParseType) :
    (c.changeParseType t).theParser = c.theParser := rfl

section Rounds

variable {store : BufId → List UInt8} {base : BufId → ℕ} {m : ParseState}
  {s t : State Part UInt8} {rest rest' : List UInt8} {fs o : List Frame}

theorem memcpy_append (got as : List UInt8) (n : ℕ) {off : ℤ} (hoff : off = got.length) :
    memcpy (got ++ List.replicate n 0) off as =
      got ++ as ++ List.replicate (n - as.length) 0 := by
  have htake : (got ++ List.replicate n (0 : UInt8)).take got.length = got := List.take_left
  rw [memcpy, hoff, Int.toNat_natCast, htake, ← List.drop_drop, List.drop_left,
    List.drop_replicate]

/-- The counter of the current part, as the code keeps it. -/
def ParseState.counter (m : ParseState) : ℤ :=
  match m.conn.parseType with
  | .magic => m.conn.magicRemain
  | .header => m.conn.theParser.headerRemain
  | .rpcHeader | .rpcContent => m.conn.theParser.rpcRemain.getD 0

theorem ParseState.remain_eq_min (m : ParseState) : m.remain = min m.counter m.length := by
  unfold ParseState.remain ParseState.counter
  cases m.conn.parseType <;> rfl

theorem Sim.counter_eq (h : Sim store base m s rest fs) :
    m.counter = frameReader.need s.part - s.got.length := by
  have hin := h.inPart
  unfold InPart at hin
  unfold ParseState.counter
  cases hp : s.part with
  | magic =>
    rw [hp] at hin
    rw [hin.1, hin.2.1]
    rfl
  | between mg start =>
    rw [hp] at hin
    obtain ⟨htype, hmr, -, hgot, -⟩ := hin
    rw [htype, hmr, hgot]
    rfl
  | lengths mg start =>
    rw [hp] at hin
    obtain ⟨htype, -, -, -, hparser⟩ := hin
    rw [htype, hparser]
    rfl
  | header mg start ls =>
    rw [hp] at hin
    obtain ⟨htype, -, -, buf, hparser, -⟩ := hin
    rw [htype, hparser]
    rfl
  | body mg start ls hd =>
    rw [hp] at hin
    obtain ⟨htype, -, -, hbuf, buf, hparser, -⟩ := hin
    rw [htype, hparser]
    rfl

/-- The iteration takes the bytes that the round takes. -/
theorem Sim.remain_eq {as : List UInt8} (h : Sim store base m s (as ++ rest') fs)
    (has : (s.got.length : ℤ) + as.length < frameReader.need s.part ∧ rest' = [] ∨
      frameReader.need s.part = s.got.length + as.length) : m.remain = as.length := by
  have hc := h.counter_eq
  have hl := h.window.count
  rw [List.length_append] at hl
  push_cast at hl
  rw [m.remain_eq_min, hc]
  rcases has with ⟨hlt, rfl⟩ | heq
  · rw [List.length_nil] at hl
    push_cast at hl
    omega
  · omega

theorem Sim.length_pos (h : Sim store base m s rest fs) (hne : rest ≠ []) : 0 < m.length := by
  have hpos := List.length_pos_iff.mpr hne
  rw [h.window.count]
  omega

theorem Window.of_remain {k : ℕ} {pos : ℕ} (hrem : m.remain = k)
    (w : Window store base m.id (m.buf.consume k) (m.length - k) rest pos) :
    Window store base m.id (m.buf.consume m.remain) (subRemain m.length m.remain) rest pos := by
  rwa [hrem, subRemain_natCast]

theorem magicCase_sim {got as : List UInt8} (h : Sim store base m ⟨.magic, got⟩ (as ++ rest') fs)
    (hrem : m.remain = as.length)
    (hw : Window store base m.id (m.buf.consume as.length) (m.length - as.length) rest'
      (position t))
    (ht : (got.length + as.length < 4 ∧ t = ⟨.magic, got ++ as⟩) ∨
      (got.length + as.length = 4 ∧ t = ⟨.lengths (got ++ as) 0, []⟩)) :
    Sim store base m.magicCase t rest' fs := by
  obtain ⟨htype, hmr, hlt, hmagic, hparser, hloop⟩ := h.inPart
  have hread : m.buf.read m.remain = as := by rw [hrem, h.window.read]
  -- the copy lands behind what is there, in front of the bytes not yet set
  have hcopy : memcpy m.conn.magic (4 - m.conn.magicRemain) (m.buf.read m.remain) =
      got ++ as ++ List.replicate (4 - (got ++ as).length) 0 := by
    rw [hread, hmagic, memcpy_append _ _ _ (by omega), List.length_append, Nat.sub_sub]
  have hleft : m.conn.magicRemain - m.remain = 4 - (got ++ as).length := by
    rw [hrem, hmr, List.length_append]
    push_cast
    ring
  rcases ht with ⟨hshort, rfl⟩ | ⟨hfull, rfl⟩
  · refine ⟨Window.of_remain hrem hw, trivial, ?_, h.reqs⟩
    have hpos : 0 < m.conn.magicRemain - m.remain := by
      rw [hleft, List.length_append]
      push_cast
      omega
    simp only [InPart, ParseState.magicCase, if_pos hpos]
    exact ⟨htype, hleft, by rw [List.length_append]; omega, hcopy, hparser, hloop⟩
  · have hlen : (got ++ as).length = 4 := by rw [List.length_append, hfull]
    refine ⟨Window.of_remain hrem hw, hlen, ?_, h.reqs⟩
    have hzero : ¬ 0 < m.conn.magicRemain - m.remain := by rw [hleft, hlen]; norm_num
    simp only [InPart, ParseState.magicCase, if_neg hzero]
    refine ⟨rfl, by simp only [MConnection.changeParseType]; rw [hleft, hlen]; rfl, ?_, by simp, ?_⟩
    · simpa [MConnection.changeParseType, hlen] using hcopy
    · exact hparser

/-- Between two messages `M_MAGIC` is entered with nothing left to take. -/
theorem betweenCase_sim {mg : List UInt8} {start : ℕ}
    (h : Sim store base m ⟨.between mg start, []⟩ rest fs) (hrem : m.remain = 0)
    (hw : Window store base m.id (m.buf.consume 0) (m.length - 0) rest
      (position ⟨.lengths mg start, []⟩)) :
    Sim store base m.magicCase ⟨.lengths mg start, []⟩ rest fs := by
  obtain ⟨htype, hmr, hmagic, -, hparser, hloop⟩ := h.inPart
  obtain ⟨hlen, hstart⟩ := h.wf
  have hread : m.buf.read 0 = [] := slice_zero_size _ _ le_rfl
  -- `magic_remain` is still zero: nothing is copied and the old magic bytes stay
  have hcopy : memcpy m.conn.magic (4 - m.conn.magicRemain) [] = mg := by
    simp [memcpy, hmr, hmagic]
  have hnone : m.remain = ((0 : ℕ) : ℤ) := hrem
  refine ⟨Window.of_remain hnone hw, hlen, ?_, h.reqs⟩
  have hzero : ¬ 0 < m.conn.magicRemain - 0 := by rw [hmr]; norm_num
  simp only [InPart, ParseState.magicCase, hrem, hread, hcopy, if_neg hzero]
  refine ⟨rfl, by simp [MConnection.changeParseType, hmr], rfl, by simp, ?_⟩
  rw [if_neg hstart.ne']
  exact hparser

theorem memcpy_at_end (got as : List UInt8) {off : ℤ} (hoff : off = got.length) :
    memcpy got off as = got ++ as := by
  simpa using memcpy_append got as 0 hoff

/-- The bytes of the lengths are copied behind those that are there. -/
theorem lengths_copied {got as : List UInt8} (hls : m.conn.theParser.req.lengthHeader = got)
    (hheader : m.conn.theParser.headerRemain = 8 - got.length) (hread : m.buf.read m.remain = as) :
    memcpy m.conn.theParser.req.lengthHeader
      (MLengthHeader.size - m.conn.theParser.headerRemain) (m.buf.read m.remain) = got ++ as := by
  have hoff : MLengthHeader.size - m.conn.theParser.headerRemain = got.length := by
    rw [hheader, MLengthHeader.size]
    ring
  rw [hread, hls, memcpy_at_end got as hoff]

theorem headerCase_sim {mg got as : List UInt8} {start : ℕ}
    (h : Sim store base m ⟨.lengths mg start, got⟩ (as ++ rest') fs)
    (hrem : m.remain = as.length)
    (hw : Window store base m.id (m.buf.consume as.length) (m.length - as.length) rest'
      (position t))
    (ht : (got.length + as.length < 8 ∧ t = ⟨.lengths mg start, got ++ as⟩) ∨
      (got.length + as.length = 8 ∧ t = ⟨.header mg start (got ++ as), []⟩)) :
    Sim store base m.headerCase t rest' fs := by
  obtain ⟨htype, hmr, hmagic, hlt, hparser⟩ := h.inPart
  have hlen : mg.length = 4 := h.wf
  have hread : m.buf.read m.remain = as := by rw [hrem, h.window.read]
  have hcopy := lengths_copied (by rw [hparser]) (by rw [hparser]) hread
  have hleft : m.conn.theParser.headerRemain - m.remain = 8 - (got ++ as).length := by
    rw [hrem, hparser, List.length_append]
    push_cast
    ring
  rcases ht with ⟨hshort, rfl⟩ | ⟨hfull, rfl⟩
  · refine ⟨Window.of_remain hrem hw, hlen, ?_, h.reqs⟩
    have hpos : (0 : ℤ) < 8 - ((got ++ as).length : ℕ) := by
      rw [List.length_append]
      push_cast
      omega
    simp only [InPart, ParseState.headerCase, hcopy, hleft, if_pos hpos]
    refine ⟨htype, hmr, hmagic, by rw [List.length_append]; omega, ?_⟩
    rw [hparser]
    rfl
  · have hfull' : (got ++ as).length = 8 := by rw [List.length_append, hfull]
    refine ⟨Window.of_remain hrem hw, ⟨hlen, hfull'⟩, ?_, h.reqs⟩
    have hzero : ¬ (0 : ℤ) < 8 - ((got ++ as).length : ℕ) := by rw [hfull']; norm_num
    simp only [InPart, ParseState.headerCase, hcopy, hleft, if_neg hzero]
    refine ⟨rfl, hmr, hmagic, .new, ?_, holds_new⟩
    simp only [hparser, hfull', MRequest.rpcHeaderLength,
      List.length_nil]
    norm_num

theorem rpcHeaderCase_sim {mg ls got as : List UInt8} {start : ℕ}
    (h : Sim store base m ⟨.header mg start ls, got⟩ (as ++ rest') fs)
    (hrem : m.remain = as.length)
    (hw : Window store base m.id (m.buf.consume as.length) (m.length - as.length) rest'
      (position t))
    (ht : ((got.length : ℤ) + as.length < MLengthHeader.rpcHeaderLength ls ∧
        t = ⟨.header mg start ls, got ++ as⟩) ∨
      (MLengthHeader.rpcHeaderLength ls = got.length + as.length ∧
        t = ⟨.body mg start ls (got ++ as), []⟩)) :
    Sim store base m.rpcHeaderCase t rest' fs := by
  obtain ⟨htype, hmr, hmagic, buf, hthe, hbuf⟩ := h.inPart
  have hbuf' := h.window.holds_append hbuf
  have hleft : m.conn.theParser.rpcRemain.getD 0 - m.remain =
      MLengthHeader.rpcHeaderLength ls - (got ++ as).length := by
    rw [hrem, hthe, List.length_append, Option.getD_some]
    push_cast
    ring
  rcases ht with ⟨hshort, rfl⟩ | ⟨hfull, rfl⟩
  · refine ⟨Window.of_remain hrem hw, h.wf, ?_, h.reqs⟩
    have hpos : 0 < MLengthHeader.rpcHeaderLength ls - ((got ++ as).length : ℕ) := by
      rw [List.length_append]
      push_cast
      omega
    simp only [InPart, ParseState.rpcHeaderCase, hleft, if_pos hpos]
    refine ⟨htype, hmr, hmagic, buf.append (.new m.id m.buf as.length), ?_, hbuf'⟩
    simp [hthe, hrem]
  · have hzero : ¬ 0 < m.conn.theParser.rpcRemain.getD 0 - m.remain := by
      rw [hleft, List.length_append]
      push_cast
      omega
    refine ⟨Window.of_remain hrem hw,
      ⟨h.wf.1, h.wf.2, by rw [List.length_append]; push_cast; exact hfull⟩, ?_, h.reqs⟩
    simp only [InPart, ParseState.rpcHeaderCase, if_neg hzero]
    refine ⟨rfl, hmr, hmagic, buf.append (.new m.id m.buf as.length), .new, ?_, hbuf', holds_new⟩
    simp [hthe, hrem, MRequest.rpcBodyLength]

/-- The last body guard ends at the cursor. -/
theorem Window.stop_append {id : BufId} {buf : MBuffer} {length : ℤ} {as : List UInt8} {pos : ℕ}
    (w : Window store base id buf length (as ++ rest') pos) (ls : List UInt8) (hb bb : MReadBuf) :
    MRequest.stop base ⟨ls, hb, bb.append (.new id buf as.length)⟩ = (pos + as.length : ℕ) := by
  have hoff := w.offset
  simp only [MRequest.stop, MReadBuf.append, List.getLast?_append, List.getLast?_singleton,
    Option.some_or, MBufferGuard.new]
  push_cast
  omega

theorem rpcContentCase_sim {mg ls hd got as : List UInt8} {start : ℕ}
    (h : Sim store base m ⟨.body mg start ls hd, got⟩ (as ++ rest') fs)
    (hrem : m.remain = as.length)
    (hw : Window store base m.id (m.buf.consume as.length) (m.length - as.length) rest'
      (position t))
    (ht : ((got.length : ℤ) + as.length < MLengthHeader.rpcBodyLength ls ∧
        t = ⟨.body mg start ls hd, got ++ as⟩ ∧ o = []) ∨
      (MLengthHeader.rpcBodyLength ls = got.length + as.length ∧
        t = ⟨.between mg (start + (opening mg start ++ ls ++ hd ++ (got ++ as)).length), []⟩ ∧
        o = [⟨start, opening mg start, ls, hd, got ++ as⟩])) :
    Sim store base m.rpcContentCase t rest' (fs ++ o) := by
  obtain ⟨htype, hmr, hmagic, hbuf, buf, hthe, hhold, hbold⟩ := h.inPart
  obtain ⟨hlen, hls, hhd⟩ := h.wf
  have hbuf' := h.window.holds_append hbold
  have hleft : m.conn.theParser.rpcRemain.getD 0 - m.remain =
      MLengthHeader.rpcBodyLength ls - (got ++ as).length := by
    rw [hrem, hthe, List.length_append, Option.getD_some]
    push_cast
    ring
  rcases ht with ⟨hshort, rfl, rfl⟩ | ⟨hfull, rfl, rfl⟩
  · have hpos : 0 < m.conn.theParser.rpcRemain.getD 0 - m.remain := by
      rw [hleft, List.length_append]
      push_cast
      omega
    simp only [ParseState.rpcContentCase, if_pos hpos, List.append_nil]
    refine ⟨Window.of_remain hrem hw, h.wf, ?_, h.reqs⟩
    simp only [InPart, hleft]
    refine ⟨htype, hmr, hmagic, hbuf, buf.append (.new m.id m.buf as.length), ?_, hhold, hbuf'⟩
    simp [hthe, hrem]
  · have hzero : ¬ 0 < m.conn.theParser.rpcRemain.getD 0 - m.remain := by
      rw [hleft, List.length_append]
      push_cast
      omega
    simp only [ParseState.rpcContentCase, if_neg hzero]
    refine ⟨Window.of_remain hrem hw, ⟨hlen, ?_⟩, ?_, ?_⟩
    · simp only [List.length_append]
      omega
    · simp [InPart, MConnection.parserReset, MConnection.changeParseType, MConnection.resetParser,
        MConnection.theParser, MLengthHeader.size, hmr, hmagic]
    · -- the finished request joins the ones already returned
      apply List.rel_append h.reqs
      apply List.Forall₂.cons _ .nil
      have hstop := h.window.stop_append ls hbuf buf
      refine ⟨by rw [hthe], by rw [hthe]; exact hhold, by rw [hthe, hrem]; exact hbuf', ?_⟩
      rw [hthe, hrem, hstop, Frame.stop, Frame.bytes]
      simp only [position, inProgress, Part.start, List.length_append]
      push_cast
      ring

theorem Sim.step_eq (h : Sim store base m s rest fs) (hne : rest ≠ [])
    (hloop : m.loop = s.part.loop) :
    m.step = some (match s.part with
      | .magic | .between _ _ => m.magicCase
      | .lengths _ _ => m.headerCase
      | .header _ _ _ => m.rpcHeaderCase
      | .body _ _ _ _ => m.rpcContentCase) := by
  have hpos := h.length_pos hne
  have hin := h.inPart
  unfold InPart at hin
  unfold ParseState.step
  cases hp : s.part <;> rw [hp] at hin hloop <;> simp only [Part.loop] at hloop <;>
    simp only [hloop, hin.1, if_pos hpos]

/-- A round of the frame reader is one iteration of the loop that works on the part. -/
theorem sim_round (h : Sim store base m s rest fs) (hne : rest ≠ []) (hloop : m.loop = s.part.loop)
    (hr : frameReader.round s rest = some (t, rest', o)) :
    ∃ m', m.step = some m' ∧ m'.id = m.id ∧ Sim store base m' t rest' (fs ++ o) := by
  have hstep := h.step_eq hne hloop
  obtain ⟨as, rfl, hcase⟩ := round_cases hr
  have hrem : m.remain = as.length := by
    apply h.remain_eq
    rcases hcase with ⟨hlt, hnil, -⟩ | ⟨heq, -⟩
    · exact Or.inl ⟨hlt, hnil⟩
    · exact Or.inr heq
  have hw : Window store base m.id (m.buf.consume as.length) (m.length - as.length) rest'
      (position t) := by
    have hpos := position_of_visits (.single hne hr) h.wf
    have htake := h.window.take
    rw [List.length_append] at hpos
    rwa [show position s + as.length = position t by omega] at htake
  -- one case per part, each by the lemma about the branch of the loop that handles it
  refine ⟨_, hstep, ?_, ?_⟩
  · rcases s with ⟨p, got⟩
    cases p <;> simp only [ParseState.magicCase, ParseState.headerCase, ParseState.rpcHeaderCase,
      ParseState.rpcContentCase, ParseState.take]
    split_ifs <;> rfl
  rcases s with ⟨p, got⟩
  cases p with
  | magic =>
    rcases hcase with ⟨hlt, -, rfl, rfl⟩ | ⟨heq, rfl, rfl⟩
    · rw [List.append_nil]
      exact magicCase_sim h hrem hw (Or.inl ⟨by simp only [frameReader] at hlt; omega, rfl⟩)
    · simp only [frameReader, List.append_nil]
      exact magicCase_sim h hrem hw (Or.inr ⟨by simp only [frameReader] at heq; omega, rfl⟩)
  | between mg start =>
    have hgot : got = [] := h.inPart.2.2.2.1
    subst hgot
    rcases hcase with ⟨hlt, -⟩ | ⟨heq, rfl, rfl⟩
    · simp only [frameReader, List.length_nil] at hlt
      omega
    · have has : as = [] := by
        simp only [frameReader, List.length_nil] at heq
        exact List.length_eq_zero_iff.mp (by omega)
      subst has
      simp only [frameReader, List.append_nil]
      exact betweenCase_sim h hrem hw
  | lengths mg start =>
    have hneed : frameReader.need (.lengths mg start) = 8 := rfl
    rcases hcase with ⟨hlt, -, rfl, rfl⟩ | ⟨heq, rfl, rfl⟩
    · rw [List.append_nil]
      exact headerCase_sim h hrem hw (Or.inl ⟨by rw [hneed] at hlt; simp only at hlt; omega, rfl⟩)
    · simp only [frameReader, List.append_nil]
      exact headerCase_sim h hrem hw (Or.inr ⟨by rw [hneed] at heq; simp only at heq; omega, rfl⟩)
  | header mg start ls =>
    rcases hcase with ⟨hlt, -, rfl, rfl⟩ | ⟨heq, rfl, rfl⟩
    · rw [List.append_nil]
      exact rpcHeaderCase_sim h hrem hw (Or.inl ⟨hlt, rfl⟩)
    · simp only [frameReader, List.append_nil]
      exact rpcHeaderCase_sim h hrem hw (Or.inr ⟨heq, rfl⟩)
  | body mg start ls hd =>
    rcases hcase with ⟨hlt, -, rfl, rfl⟩ | ⟨heq, rfl, rfl⟩
    · exact rpcContentCase_sim h hrem hw (Or.inl ⟨hlt, rfl, rfl⟩)
    · exact rpcContentCase_sim h hrem hw (Or.inr ⟨heq, rfl, rfl⟩)

/-- Only the parts of a message are independent of the loop that is at its head. -/
theorem InPart.of_loop {c c' : MConnection} {l l' : Loop} (h : InPart store l c s)
    (hl : s.part.loop = .splitMessage) (hc : c'.parseType = c.parseType ∧
      c'.magicRemain = c.magicRemain ∧ c'.magic = c.magic ∧ c'.theParser = c.theParser) :
    InPart store l' c' s := by
  obtain ⟨htype, hmr, hmagic, hthe⟩ := hc
  unfold InPart at h ⊢
  cases hp : s.part with
  | magic => simp [hp, Part.loop] at hl
  | between mg start => simp [hp, Part.loop] at hl
  | lengths mg start => simpa only [hp, htype, hmr, hmagic, hthe] using h
  | header mg start ls => simpa only [hp, htype, hmr, hmagic, hthe] using h
  | body mg start ls hd => simpa only [hp, htype, hmr, hmagic, hthe] using h

theorem Sim.loop_of_magic (h : Sim store base m s rest fs) (hl : s.part.loop = .parseConnection) :
    m.loop = .parseConnection := by
  have hin := h.inPart
  unfold InPart at hin
  cases hp : s.part <;> rw [hp] at hin hl
  · exact hin.2.2.2.2.2
  · exact hin.2.2.2.2.2
  all_goals cases hl

/-- From the head of `parse_connection` a part of a message is handed to `SplitMessage`. -/
theorem sim_enter (h : Sim store base m s rest fs) (hne : rest ≠ []) (hloop : m.loop ≠ s.part.loop) :
    ∃ m', m.step = some m' ∧ m'.id = m.id ∧ Sim store base m' s rest fs ∧
      m.loop = .parseConnection ∧ m'.loop = .splitMessage ∧ s.part.loop = .splitMessage := by
  have hpos := h.length_pos hne
  -- only the inner loop can differ from the one that runs
  have hsplit : s.part.loop = .splitMessage := by
    cases hs : s.part.loop with
    | parseConnection => exact absurd ((h.loop_of_magic hs).trans hs.symm) hloop
    | splitMessage => rfl
  have hl : m.loop = .parseConnection := by
    cases hm : m.loop with
    | parseConnection => rfl
    | splitMessage => exact absurd (hm.trans hsplit.symm) hloop
  refine ⟨m.enter, ?_, rfl,
    ⟨h.window, h.wf, h.inPart.of_loop hsplit ⟨rfl, rfl, rfl, rfl⟩, h.reqs⟩, hl, rfl, hsplit⟩
  have hin := h.inPart
  unfold InPart at hin
  cases hp : s.part <;> rw [hp] at hin hsplit
  · cases hsplit
  · cases hsplit
  all_goals simp only [ParseState.step, hl, if_pos hpos, hin.1]

/-- With nothing left, `SplitMessage` returns to `parse_connection`, and that returns. -/
theorem sim_leave (h : Sim store base m s [] fs) :
    (m.loop = .parseConnection ∧ m.step = none) ∨
      ∃ m', m.step = some m' ∧ m'.id = m.id ∧ Sim store base m' s [] fs ∧
        m.loop = .splitMessage ∧ m'.loop = .parseConnection := by
  have hzero : ¬ 0 < m.length := by rw [h.window.count]; simp
  have hin := h.inPart
  cases hm : m.loop with
  | parseConnection => exact Or.inl ⟨rfl, by simp only [ParseState.step, hm, if_neg hzero]⟩
  | splitMessage =>
    refine Or.inr ⟨{ m with loop := .parseConnection }, ?_, rfl, ⟨h.window, h.wf, ?_, h.reqs⟩, rfl,
      rfl⟩
    · simp only [ParseState.step, hm, if_neg hzero]
    · -- a part of the outer loop cannot be met inside `SplitMessage`
      cases hs : s.part.loop with
      | parseConnection =>
        rw [h.loop_of_magic hs] at hm
        cases hm
      | splitMessage => exact hin.of_loop hs ⟨rfl, rfl, rfl, rfl⟩

end Rounds

end MgRaffle.MgServer
