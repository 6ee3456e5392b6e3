import MgRaffle.Library.LittleEndian
import MgRaffle.Library.Looping
import MgRaffle.MgServer.Buffer

open Looping
open MgRaffle.MgServer (memcpy slice)

namespace MgRaffle.TcpServer

/-- A run of bytes of the chunk number `buf`, which the handle keeps alive. The source passes the
three members in another order than the constructor takes them. -/
structure BufHandle where
  offset : ℤ
  size : ℤ
  buf : ℕ
  deriving Repr, DecidableEq

/-- The read buffer is the list of its handles: `_total_bytes` is never set before it is added to. -/
structure SBinaryRequest where
  readBuf : List BufHandle
  recievedTime : ℤ
  remoteIp : Option String
  remotePort : Option ℤ
  deriving Repr, DecidableEq

namespace SBinaryRequest

def new : SBinaryRequest := ⟨[], 0, none, none⟩

/-- `get_read_buf()->Append`. -/
def append (r : SBinaryRequest) (h : BufHandle) : SBinaryRequest :=
  { r with readBuf := r.readBuf ++ [h] }

/-- The bytes that the read buffer refers to. -/
def bytes (chunks : List (List UInt8)) (r : SBinaryRequest) : List UInt8 :=
  r.readBuf.flatMap fun h => slice (chunks.getD h.buf []) h.offset h.size

end SBinaryRequest

inductive ReadType
  | rpcHeader
  | rpcMessage
  deriving Repr, DecidableEq

/-- `sizeof(RpcMessageHeader)`, three 32-bit integers. -/
def gHeaderSize : ℤ := 12

namespace RpcMessageHeader

def metaSize (bytes : List UInt8) : ℤ := LittleEndian.toInt32 (bytes.take 4)

def dataSize (bytes : List UInt8) : ℤ := LittleEndian.toInt32 ((bytes.drop 4).take 4)

def messageSize (bytes : List UInt8) : ℤ := LittleEndian.toInt32 (bytes.drop 8)

/-- `_meta_size + _data_size` as an `int`, which wraps around. -/
def sumSize (bytes : List UInt8) : ℤ := Int.bmod (metaSize bytes + dataSize bytes) (2 ^ 32)

end RpcMessageHeader

/-- `_recieve_header` is not initialised: it holds the bytes written so far. -/
structure SBinarySTreamParser where
  recieveHeader : List UInt8
  type : ReadType
  request : SBinaryRequest
  moduleHasReadSize : ℤ
  deriving Repr, DecidableEq

/-- What a call of `parser_msg` returns and leaves in the parser and in its two counters. -/
structure Parsed where
  ret : ℤ
  parser : SBinarySTreamParser
  consume : ℤ
  remainLength : ℤ
  deriving Repr, DecidableEq

namespace SBinarySTreamParser

def new : SBinarySTreamParser := ⟨[], .rpcHeader, .new, 0⟩

def resetRecieveEnv (p : SBinarySTreamParser) : SBinarySTreamParser :=
  { p with moduleHasReadSize := 0, type := .rpcHeader }

/-- `case RPC_MESSAGE`. -/
def messageCase (p : SBinarySTreamParser) (buf : ℕ) (consume remainLength : ℤ) : Parsed :=
  let messageSize := RpcMessageHeader.messageSize p.recieveHeader
  let realRead := min (messageSize - p.moduleHasReadSize) remainLength
  let p := { p with
    request := p.request.append ⟨consume, realRead, buf⟩
    moduleHasReadSize := p.moduleHasReadSize + realRead }
  if p.moduleHasReadSize < messageSize then ⟨0, p, consume + realRead, remainLength - realRead⟩
  else ⟨1, p.resetRecieveEnv, consume + realRead, remainLength - realRead⟩

/-- `case RPC_HEADER`, which falls through to the other one; `none` where its assertion fails. -/
def headerCase (p : SBinarySTreamParser) (buf : ℕ) (data : List UInt8) (consume remainLength : ℤ) :
    Option Parsed :=
  if p.moduleHasReadSize < gHeaderSize then
    let realRead := min (gHeaderSize - p.moduleHasReadSize) remainLength
    let p := { p with
      recieveHeader := memcpy p.recieveHeader p.moduleHasReadSize (slice data consume realRead)
      moduleHasReadSize := p.moduleHasReadSize + realRead }
    let consume := consume + realRead
    let remainLength := remainLength - realRead
    if p.moduleHasReadSize < gHeaderSize then some ⟨0, p, consume, remainLength⟩
    else if RpcMessageHeader.messageSize p.recieveHeader ≠
        RpcMessageHeader.sumSize p.recieveHeader then
      some ⟨-1, p, consume, remainLength⟩
    else
      let p := { p with moduleHasReadSize := 0, type := .rpcMessage }
      if remainLength = 0 then some ⟨0, p, consume, remainLength⟩
      else some (p.messageCase buf consume remainLength)
  else none

def parserMsg (p : SBinarySTreamParser) (buf : ℕ) (data : List UInt8) (consume remainLength : ℤ) :
    Option Parsed :=
  match p.type with
  | .rpcHeader => p.headerCase buf data consume remainLength
  | .rpcMessage => some (p.messageCase buf consume remainLength)

def getRequest (p : SBinarySTreamParser) : SBinaryRequest × SBinarySTreamParser :=
  (p.request, { p with request := .new })

end SBinarySTreamParser

/-- `_magic_number` is not initialised: it holds the bytes written so far. -/
structure SStream where
  parser : Option SBinarySTreamParser
  magicStringRecieveSize : ℤ
  magicNumber : List UInt8
  deriving Repr, DecidableEq

/-- What a request gets from its connection and from `time`. -/
structure Origin where
  dstIp : String
  dstPort : ℤ
  time : ℕ → ℤ

/-- The variables of `split_message`. -/
structure Splitting where
  stream : SStream
  consume : ℤ
  remainLength : ℤ
  requests : List SBinaryRequest
  deriving Repr, DecidableEq

namespace SStream

def new : SStream := ⟨none, 0, []⟩

def chooseParser (s : SStream) : Bool × SStream :=
  if LittleEndian.toInt32 s.magicNumber = 1 then (true, { s with parser := some .new })
  else (false, s)

/-- The turn reads what is missing of the magic number. -/
def readMagic (data : List UInt8) (v : Splitting) : Splitting :=
  let s := v.stream
  let realRead := min (4 - s.magicStringRecieveSize) v.remainLength
  { v with
    stream := { s with
      magicNumber := memcpy s.magicNumber s.magicStringRecieveSize (slice data v.consume realRead)
      magicStringRecieveSize := s.magicStringRecieveSize + realRead }
    consume := v.consume + realRead
    remainLength := v.remainLength - realRead }

abbrev SplitResult := Bool × SStream × List SBinaryRequest

/-- The rest of a turn, with the magic number complete. -/
def parseTurn (origin : Origin) (buf : ℕ) (data : List UInt8) (v : Splitting) :
    Option (Splitting ⊕ SplitResult) :=
  match v.stream.parser with
  -- the first operand of `!_parser || choose_parser()` alone
  | none => some (.inr (false, v.stream, v.requests))
  | some _ =>
    let (chosen, s) := v.stream.chooseParser
    if chosen then some (.inr (false, s, v.requests))
    else
      s.parser.bind fun p => (p.parserMsg buf data v.consume v.remainLength).bind fun o =>
        if o.ret = 0 then some (.inr (true, { s with parser := some o.parser }, v.requests))
        else if o.ret < 0 then some (.inr (false, { s with parser := some o.parser }, v.requests))
        else
          let (request, p) := o.parser.getRequest
          let request := { request with
            recievedTime := origin.time v.requests.length
            remoteIp := some origin.dstIp
            remotePort := some origin.dstPort }
          some (.inl ⟨{ s with parser := some p, magicStringRecieveSize := 0 }, o.consume,
            o.remainLength, v.requests ++ [request]⟩)

def splitTurn (origin : Origin) (buf : ℕ) (data : List UInt8) (v : Splitting) :
    Option (Splitting ⊕ SplitResult) :=
  if 0 < v.remainLength then
    if v.stream.magicStringRecieveSize < 4 then
      let v := readMagic data v
      if v.stream.magicStringRecieveSize < 4 then some (.inr (true, v.stream, v.requests))
      else parseTurn origin buf data v
    else parseTurn origin buf data v
  else some (.inr (true, v.stream, v.requests))

/-- The chunk number `buf`, all of whose bytes were received. A turn that is not the last one takes
a byte or has a complete message of no bytes left over from the call before. -/
def splitMessage (origin : Origin) (s : SStream) (buf : ℕ) (data : List UInt8)
    (requests : List SBinaryRequest) : Option SplitResult :=
  loop (splitTurn origin buf data) (data.length + 2) ⟨s, 0, data.length, requests⟩

/-- One call after the other, the chunks numbered from `buf` on. -/
def splitAll (origin : Origin) : SStream → List SBinaryRequest → ℕ → List (List UInt8) →
    Option (List Bool × List SBinaryRequest)
  | _, requests, _, [] => some ([], requests)
  | s, requests, buf, data :: rest =>
    (splitMessage origin s buf data requests).bind fun (ok, s, requests) =>
      (splitAll origin s requests (buf + 1) rest).map fun (oks, requests) => (ok :: oks, requests)

end SStream

/-- A message whose sizes fit an `int32_t`. -/
structure RpcMessage where
  metaSize : ℕ
  dataSize : ℕ
  body : List UInt8
  length_body : body.length = metaSize + dataSize
  fits : metaSize + dataSize < 2 ^ 31

def RpcMessage.encode (m : RpcMessage) : List UInt8 :=
  LittleEndian.ofNat32 1 ++ LittleEndian.ofNat32 m.metaSize ++ LittleEndian.ofNat32 m.dataSize ++
    LittleEndian.ofNat32 (m.metaSize + m.dataSize) ++ m.body

/-- Every call returns true, and there is one request for each message, with its bytes. -/
def SStream.Splits (origin : Origin) (s : SStream) (chunks : List (List UInt8))
    (messages : List RpcMessage) : Prop :=
  ∃ oks requests, s.splitAll origin [] 0 chunks = some (oks, requests) ∧ (∀ ok ∈ oks, ok = true) ∧
    requests.map (·.bytes chunks) = messages.map (·.body)

namespace SStream

variable {origin : Origin} {s : SStream} {buf : ℕ} {data : List UInt8}
  {requests : List SBinaryRequest}

/-- A call that does not complete the magic number waits for more. -/
theorem splitMessage_wait (hne : data ≠ []) (h : s.magicStringRecieveSize + data.length < 4) :
    ∃ magic, s.splitMessage origin buf data requests =
      some (true, ⟨s.parser, s.magicStringRecieveSize + data.length, magic⟩, requests) := by
  have hlen := List.length_pos_of_ne_nil hne
  have hread : min (4 - s.magicStringRecieveSize) (data.length : ℤ) = data.length :=
    min_eq_right (by omega)
  refine ⟨memcpy s.magicNumber s.magicStringRecieveSize (slice data 0 data.length), ?_⟩
  refine loop_inr ?_
  unfold splitTurn
  dsimp only [readMagic]
  rw [hread, if_pos (by omega), if_pos (by omega), if_pos (by omega)]

/-- A call that completes the magic number fails, as there is no parser. -/
theorem splitMessage_fail (hparser : s.parser = none) (h : s.magicStringRecieveSize < 4)
    (hfour : 4 ≤ s.magicStringRecieveSize + data.length) :
    ∃ t, s.splitMessage origin buf data requests = some (false, t, requests) := by
  have hread : min (4 - s.magicStringRecieveSize) (data.length : ℤ) =
      4 - s.magicStringRecieveSize := min_eq_left (by omega)
  refine ⟨(readMagic data ⟨s, 0, data.length, requests⟩).stream, loop_inr ?_⟩
  unfold splitTurn parseTurn
  dsimp only [readMagic]
  rw [hread, if_pos (by omega), if_pos h, if_neg (by omega), hparser]

/-- Without a parser the chunks that complete a magic number are not all accepted. -/
theorem splitAll_refused (chunks : List (List UInt8)) (hne : ∀ c ∈ chunks, c ≠ [])
    (hparser : s.parser = none) (h : s.magicStringRecieveSize < 4)
    (hfour : 4 ≤ s.magicStringRecieveSize + chunks.flatten.length) {oks : List Bool}
    {requests' : List SBinaryRequest}
    (hall : s.splitAll origin requests buf chunks = some (oks, requests')) : false ∈ oks := by
  induction chunks generalizing s requests buf oks with
  | nil =>
    rw [List.flatten_nil, List.length_nil] at hfour
    omega
  | cons data rest ih =>
    obtain ⟨⟨ok, t, reqs⟩, hsplit, hmap⟩ := Option.bind_eq_some_iff.mp hall
    obtain ⟨⟨oks', reqs'⟩, hrest, heq⟩ := Option.map_eq_some_iff.mp hmap
    simp only [Prod.mk.injEq] at heq
    obtain ⟨rfl, rfl⟩ := heq
    rw [List.flatten_cons, List.length_append] at hfour
    by_cases hless : s.magicStringRecieveSize + data.length < 4
    · obtain ⟨magic, hwait⟩ := splitMessage_wait (hne data List.mem_cons_self) hless
      rw [hwait, Option.some.injEq] at hsplit
      cases hsplit
      refine List.mem_cons_of_mem _ (ih ?_ ?_ ?_ ?_ hrest)
      · intro c hc
        exact hne c (List.mem_cons_of_mem _ hc)
      · exact hparser
      · exact hless
      · dsimp only
        omega
    · obtain ⟨u, hfail⟩ := splitMessage_fail hparser h (not_lt.mp hless)
      rw [hfail, Option.some.injEq] at hsplit
      cases hsplit
      exact List.mem_cons_self

/-- A fresh stream splits what it receives if and only if that is nothing at all. -/
theorem splits_iff (origin : Origin) (messages : List RpcMessage) (chunks : List (List UInt8))
    (hne : ∀ c ∈ chunks, c ≠ []) (hsplit : chunks.flatten = messages.flatMap RpcMessage.encode) :
    new.Splits origin chunks messages ↔ messages = [] := by
  constructor
  · rintro ⟨oks, requests, hall, hok, -⟩
    cases messages with
    | nil => rfl
    | cons m rest =>
      have hlen : 4 ≤ chunks.flatten.length := by
        rw [hsplit, List.flatMap_cons, RpcMessage.encode]
        simp only [List.length_append, LittleEndian.length_ofNat32]
        omega
      have hfalse := splitAll_refused chunks hne rfl (by decide) (by dsimp only [new]; omega) hall
      cases hok false hfalse
  · rintro rfl
    have hnil : chunks = [] := by
      rw [List.flatMap_nil, List.flatten_eq_nil_iff] at hsplit
      exact List.eq_nil_iff_forall_not_mem.mpr fun c hc => hne c hc (hsplit c hc)
    rw [hnil]
    exact ⟨[], [], rfl, (fun ok h => nomatch h), rfl⟩

/-- A message of no bytes, received in two chunks. -/
theorem splits_iff_empty_message : new.Splits ⟨"", 0, fun _ => 0⟩
    [[1, 0, 0], [0, 0, 0, 0, 0, 0, 0, 0, 0, 0, 0, 0, 0]] [⟨0, 0, [], rfl, by decide⟩] ↔
      [RpcMessage.mk 0 0 [] rfl (by decide)] = [] :=
  splits_iff _ [⟨0, 0, [], rfl, by decide⟩] [[1, 0, 0], [0, 0, 0, 0, 0, 0, 0, 0, 0, 0, 0, 0, 0]]
    (by decide) rfl

/-- A message with one byte of metadata and two of data, received in one chunk. -/
theorem first_message_refused : ¬ ∀ (origin : Origin) (messages : List RpcMessage)
    (chunks : List (List UInt8)), (∀ c ∈ chunks, c ≠ []) →
    chunks.flatten = messages.flatMap RpcMessage.encode → new.Splits origin chunks messages := by
  intro h
  obtain ⟨oks, requests, hall, hok, -⟩ := h ⟨"", 0, fun _ => 0⟩ [⟨1, 2, [5, 6, 7], rfl, by decide⟩]
    [[1, 0, 0, 0, 1, 0, 0, 0, 2, 0, 0, 0, 3, 0, 0, 0, 5, 6, 7]] (by decide) rfl
  have hrun : new.splitAll ⟨"", 0, fun _ => 0⟩ [] 0
      [[1, 0, 0, 0, 1, 0, 0, 0, 2, 0, 0, 0, 3, 0, 0, 0, 5, 6, 7]] = some ([false], []) := rfl
  rw [hrun, Option.some.injEq, Prod.mk.injEq] at hall
  rw [← hall.1] at hok
  cases hok false List.mem_cons_self

end SStream

end MgRaffle.TcpServer
