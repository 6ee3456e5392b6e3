import MgRaffle.Library.LittleEndian
import MgRaffle.Library.Stepping
import MgRaffle.MgServer.Buffer

namespace MgRaffle.MgServer

/-- `MAGIC`, the four bytes of "peng". -/
def MAGIC : List UInt8 := [0x70, 0x65, 0x6e, 0x67]

/-- `M_MAGIC`, `M_HEADER`, `M_RPC_HEADER` and `M_RPC_CONTENT`. -/
inductive ParseType
  | magic
  | header
  | rpcHeader
  | rpcContent
  deriving Repr, DecidableEq

/-- `struct MLengthHeader` as it lies in memory, two 32-bit integers. -/
def MLengthHeader.size : ℤ := 8

def MLengthHeader.rpcHeaderLength (bytes : List UInt8) : ℤ := LittleEndian.toInt32 (bytes.take 4)

def MLengthHeader.rpcBodyLength (bytes : List UInt8) : ℤ := LittleEndian.toInt32 (bytes.drop 4)

/-- `_length_header` is not initialised: `lengthHeader` holds the bytes written so far.
The request's `_conn` is the connection whose parser built it. -/
structure MRequest where
  lengthHeader : List UInt8
  rpcHeaderBuf : MReadBuf
  rpcBodyBuf : MReadBuf
  deriving Repr, DecidableEq

namespace MRequest

def new : MRequest := ⟨[], .new, .new⟩

def rpcHeaderLength (r : MRequest) : ℤ := MLengthHeader.rpcHeaderLength r.lengthHeader

def rpcBodyLength (r : MRequest) : ℤ := MLengthHeader.rpcBodyLength r.lengthHeader

end MRequest

/-- The constructor leaves `_rpc_remain` unset. -/
structure MParser where
  headerRemain : ℤ
  rpcRemain : Option ℤ
  req : MRequest
  deriving Repr, DecidableEq

def MParser.new : MParser := ⟨MLengthHeader.size, none, .new⟩

structure MConnection where
  fd : ℤ
  magic : List UInt8
  magicRemain : ℤ
  parseType : ParseType
  parser : Option MParser
  sendBuf : MReadBuf
  deriving Repr, DecidableEq

namespace MConnection

def new (fd : ℤ) : MConnection := ⟨fd, [0, 0, 0, 0], 4, .magic, none, .new⟩

def changeParseType (c : MConnection) (t : ParseType) : MConnection := { c with parseType := t }

/-- `Parser()`; every caller has made sure that there is one. -/
def theParser (c : MConnection) : MParser := c.parser.getD .new

def resetParser (c : MConnection) (p : MParser) : MConnection := { c with parser := some p }

/-- `MParser::Reset`. The magic counter of the connection keeps its value. -/
def parserReset (c : MConnection) : MConnection :=
  (c.resetParser { c.theParser with headerRemain := MLengthHeader.size, rpcRemain := some 0 }).changeParseType
    .magic

end MConnection

/-- Which of the two loops is at its head. -/
inductive Loop
  | parseConnection
  | splitMessage
  deriving Repr, DecidableEq

/-- `parse_connection` on the buffer number `id`, with `SplitMessage` inside it. The counter
`length` is the one that both loops share by reference. -/
structure ParseState where
  loop : Loop
  conn : MConnection
  id : BufId
  buf : MBuffer
  length : ℤ
  reqs : List MRequest
  deriving Repr, DecidableEq

/-- `length -= remain` on two `int`s. The iteration takes at most `length` bytes, so only a negative
`remain` can lead out of the range; past `INT_MAX` the counter goes around. -/
def subRemain (length remain : ℤ) : ℤ :=
  if 0 ≤ remain then length - remain else (length - remain).bmod 4294967296

theorem subRemain_of_nonneg {length remain : ℤ} (h : 0 ≤ remain) :
    subRemain length remain = length - remain := if_pos h

@[simp] theorem subRemain_natCast (length : ℤ) (n : ℕ) : subRemain length n = length - n :=
  subRemain_of_nonneg (Int.natCast_nonneg n)

/-- Up to multiples of `2 ^ 32` the counter goes down by what is taken. -/
theorem subRemain_dvd (length remain : ℤ) :
    4294967296 ∣ remain + subRemain length remain - length := by
  unfold subRemain
  split_ifs
  · exact ⟨0, by ring⟩
  · rw [Int.bmod_def]
    omega

theorem le_subRemain {length remain : ℤ} (h : remain ≤ length) :
    -2147483648 ≤ subRemain length remain := by
  unfold subRemain
  split_ifs
  · omega
  · rw [Int.bmod_def]
    omega

/-- For two `int`s as the loops have them it is the difference of 32 bits. -/
theorem subRemain_eq_bmod {length remain : ℤ} (hle : remain ≤ length) (hpos : 0 < length)
    (hint : length ≤ 2147483647) :
    subRemain length remain = (length - remain).bmod 4294967296 := by
  unfold subRemain
  split_ifs with h
  · rw [Int.bmod_eq_of_le (by omega) (by omega)]
  · rfl

namespace ParseState

/-- `buf->Consume(remain)` and `length -= remain`. -/
def take (s : ParseState) (remain : ℤ) : ParseState :=
  { s with buf := s.buf.consume remain, length := subRemain s.length remain }

/-- The number of bytes that the coming iteration takes: its `remain`. -/
def remain (s : ParseState) : ℤ :=
  match s.conn.parseType with
  | .magic => min s.conn.magicRemain s.length
  | .header => min s.conn.theParser.headerRemain s.length
  | .rpcHeader | .rpcContent => min (s.conn.theParser.rpcRemain.getD 0) s.length

theorem remain_le (s : ParseState) : s.remain ≤ s.length := by
  unfold remain
  split <;> exact min_le_right _ _

/-- `case M_MAGIC` of `parse_connection`. The bytes are kept and never compared. -/
def magicCase (s : ParseState) : ParseState :=
  let c := s.conn
  let c := { c with
    magic := memcpy c.magic (4 - c.magicRemain) (s.buf.read s.remain)
    magicRemain := c.magicRemain - s.remain }
  { s.take s.remain with
    conn := if 0 < c.magicRemain then c else c.changeParseType .header }

/-- `case M_HEADER` of `SplitMessage`. -/
def headerCase (s : ParseState) : ParseState :=
  let p := s.conn.theParser
  let req := { p.req with
    lengthHeader :=
      memcpy p.req.lengthHeader (MLengthHeader.size - p.headerRemain) (s.buf.read s.remain) }
  let p := { p with headerRemain := p.headerRemain - s.remain, req := req }
  { s.take s.remain with
    conn :=
      if 0 < p.headerRemain then s.conn.resetParser p
      else (s.conn.resetParser { p with rpcRemain := some req.rpcHeaderLength }).changeParseType
        .rpcHeader }

/-- `case M_RPC_HEADER` of `SplitMessage`. -/
def rpcHeaderCase (s : ParseState) : ParseState :=
  let p := s.conn.theParser
  let req := { p.req with rpcHeaderBuf := p.req.rpcHeaderBuf.append (.new s.id s.buf s.remain) }
  let rpcRemain := p.rpcRemain.getD 0 - s.remain
  { s.take s.remain with
    conn :=
      if 0 < rpcRemain then s.conn.resetParser { p with rpcRemain := some rpcRemain, req := req }
      else (s.conn.resetParser { p with rpcRemain := some req.rpcBodyLength, req := req }).changeParseType
        .rpcContent }

/-- `case M_RPC_CONTENT` of `SplitMessage`; a complete request is returned to
`parse_connection`, which queues it. -/
def rpcContentCase (s : ParseState) : ParseState :=
  let p := s.conn.theParser
  let req := { p.req with rpcBodyBuf := p.req.rpcBodyBuf.append (.new s.id s.buf s.remain) }
  let rpcRemain := p.rpcRemain.getD 0 - s.remain
  if 0 < rpcRemain then
    { s.take s.remain with
      conn := s.conn.resetParser { p with rpcRemain := some rpcRemain, req := req } }
  else
    { s.take s.remain with
      loop := .parseConnection
      conn := (s.conn.resetParser { p with rpcRemain := some rpcRemain, req := .new }).parserReset
      reqs := s.reqs ++ [req] }

/-- `SplitMessage` is called, on a new parser if there is none. -/
def enter (s : ParseState) : ParseState :=
  { s with loop := .splitMessage, conn := s.conn.resetParser s.conn.theParser }

/-- One turn of the inner or of the outer loop; `none` once `parse_connection` has returned. -/
def step (s : ParseState) : Option ParseState :=
  match s.loop with
  | .parseConnection =>
    if 0 < s.length then
      match s.conn.parseType with
      | .magic => some s.magicCase
      | _ => some s.enter
    else none
  | .splitMessage =>
    if 0 < s.length then
      match s.conn.parseType with
      | .header => some s.headerCase
      | .rpcHeader => some s.rpcHeaderCase
      | .rpcContent => some s.rpcContentCase
      -- the switch has no such case, so the loop would spin
      | .magic => some s
    else some { s with loop := .parseConnection }

/-- Everything that a step can do. -/
inductive Stepped (s : ParseState) : ParseState → Prop
  | magic (hloop : s.loop = .parseConnection) (hpos : 0 < s.length)
      (htype : s.conn.parseType = .magic) : Stepped s s.magicCase
  | enter (hloop : s.loop = .parseConnection) (hpos : 0 < s.length)
      (htype : s.conn.parseType ≠ .magic) : Stepped s s.enter
  | header (hloop : s.loop = .splitMessage) (hpos : 0 < s.length)
      (htype : s.conn.parseType = .header) : Stepped s s.headerCase
  | rpcHeader (hloop : s.loop = .splitMessage) (hpos : 0 < s.length)
      (htype : s.conn.parseType = .rpcHeader) : Stepped s s.rpcHeaderCase
  | rpcContent (hloop : s.loop = .splitMessage) (hpos : 0 < s.length)
      (htype : s.conn.parseType = .rpcContent) : Stepped s s.rpcContentCase
  | spin (hloop : s.loop = .splitMessage) (hpos : 0 < s.length)
      (htype : s.conn.parseType = .magic) : Stepped s s
  | leave (hloop : s.loop = .splitMessage) (hend : ¬ 0 < s.length) :
      Stepped s { s with loop := .parseConnection }

theorem stepped_of_step {s t : ParseState} (h : s.step = some t) : Stepped s t := by
  unfold step at h
  split at h
  · split_ifs at h with hpos
    split at h <;> cases h
    · exact .magic ‹_› hpos ‹_›
    · exact .enter ‹_› hpos ‹_›
  · split_ifs at h with hpos
    · split at h <;> cases h
      · exact .header ‹_› hpos ‹_›
      · exact .rpcHeader ‹_› hpos ‹_›
      · exact .rpcContent ‹_› hpos ‹_›
      · exact .spin ‹_› hpos ‹_›
    · cases h
      exact .leave ‹_› hpos

/-- `parse_connection(conn, buf, length)` is called. -/
def call (conn : MConnection) (id : BufId) (buf : MBuffer) (length : ℤ) : ParseState :=
  ⟨.parseConnection, conn, id, buf, length, []⟩

end ParseState

/-- A received chunk in a buffer of its own, with the cursor at 0. -/
def MBuffer.ofChunk (chunk : List UInt8) : MBuffer := ⟨chunk, chunk.length, 0, chunk.length⟩

def ParseState.feed (conn : MConnection) (id : BufId) (chunk : List UInt8) : ParseState :=
  .call conn id (.ofChunk chunk) chunk.length

/-- `Feeds n conn chunks conn' rs`: `parse_connection` is called on the chunks in order, the
first one in buffer `n` and each next one in the next buffer; every call returns, and `rs` are
the queues that the calls return. -/
inductive Feeds : ℕ → MConnection → List (List UInt8) → MConnection → List (List MRequest) → Prop
  | nil (n : ℕ) (conn : MConnection) : Feeds n conn [] conn []
  | cons {n : ℕ} {conn conn' : MConnection} {chunk : List UInt8} {chunks : List (List UInt8)}
      {s : ParseState} {rs : List (List MRequest)}
      (hcall : Stepping.Returns ParseState.step (.feed conn n chunk) s)
      (hrest : Feeds (n + 1) s.conn chunks conn' rs) :
      Feeds n conn (chunk :: chunks) conn' (s.reqs :: rs)

/-- The states passed through while the chunks are fed to a fresh connection, from the calls
up to and including the one that is being made. -/
def Visited (fd : ℤ) (chunks : List (List UInt8)) (s : ParseState) : Prop :=
  ∃ before chunk after conn rs, chunks = before ++ chunk :: after ∧
    Feeds 0 (.new fd) before conn rs ∧
    Stepping.Reaches ParseState.step (.feed conn before.length chunk) s

end MgRaffle.MgServer
