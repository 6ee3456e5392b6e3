import MgRaffle.MgServer.Output
import MgRaffle.MgServer.Response

namespace MgRaffle.MgServer

abbrev ConnId := ℕ

/-- The iteration of the loop of `recv_run` that is being made: the descriptor and connection it
was called for, and the buffer it has allocated. -/
structure Receiving where
  fd : ℤ
  conn : ConnId
  buf : BufId
  deriving Repr, DecidableEq

/-- Where the thread of the server stands. `held` are the requests that `recv_run` keeps until
its iteration ends, `todo` those of them that `do_request` has not come to. -/
inductive Ctrl
  /-- `epoll_wait` -/
  | idle
  /-- the head of the loop of `recv_run` -/
  | recvRun (fd : ℤ) (conn : ConnId)
  /-- `recv` is called -/
  | recv (w : Receiving)
  /-- in `parse_connection` -/
  | parse (w : Receiving) (loop : Loop) (length : ℤ) (reqs : List MRequest)
  /-- the head of the loop of `do_request` -/
  | doRequest (w : Receiving) (held todo : List MRequest)
  /-- `send` is called by `do_response` on the buffer `out` -/
  | doResponse (w : Receiving) (held todo : List MRequest) (out : BufId) (remain : ℤ)
  /-- the head of the loop of `SendBuf` -/
  | sendBuf (fd : ℤ) (conn : ConnId)
  deriving Repr, DecidableEq

/-- The server: `MBufferPool`, the buffers, `MConnManager::_conns`, and all the connections that
were ever created. A connection that has a parser is never freed, since the two refer to each other;
one that has none holds no guards. -/
structure Server where
  pool : List BufId
  heap : BufId → MBuffer
  conns : ℤ → Option ConnId
  objs : List MConnection
  ctrl : Ctrl

/-- What happens outside: connections and readiness as `epoll_wait` reports them, and the
results of `recv` and `send`; `run` is the server going on by itself. -/
inductive Event
  | accept (fd : ℤ)
  | epollin (fd : ℤ)
  | epollout (fd : ℤ)
  | run
  | received (bytes : List UInt8)
  | recvFailed (errno : ℕ)
  | sent (o : SysResult)
  deriving Repr, DecidableEq

def EBADF : ℕ := 9

namespace Server

def new : Server where
  pool := List.range BUFFER_POOL_SIZE
  heap := fun _ => .new POOL_BUFFER_CAPACITY
  conns := fun _ => none
  objs := []
  ctrl := .idle

def obj (s : Server) (c : ConnId) : MConnection := s.objs.getD c (.new 0)

def store (s : Server) : BufId → List UInt8 := fun b => (s.heap b).storage

@[simps] def goto (s : Server) (ctrl : Ctrl) : Server := { s with ctrl := ctrl }

@[simps] def giveBack (s : Server) (bs : List BufId) : Server := { s with pool := s.pool ++ bs }

@[simps] def setBuf (s : Server) (b : BufId) (buf : MBuffer) : Server :=
  { s with heap := Function.update s.heap b buf }

@[simps] def setObj (s : Server) (c : ConnId) (conn : MConnection) : Server :=
  { s with objs := s.objs.set c conn }

@[simps] def addConn (s : Server) (fd : ℤ) : Server :=
  { s with conns := Function.update s.conns fd (some s.objs.length), objs := s.objs ++ [.new fd] }

/-- `MConnManager::CreateConn`: a descriptor that is in the map already is left alone. -/
def createConn (s : Server) (fd : ℤ) : Server := if s.conns fd = none then s.addConn fd else s

@[simps] def closeConn (s : Server) (fd : ℤ) : Server :=
  { s with conns := Function.update s.conns fd none }

end Server

/-- The buffers that the guards of a request refer to, in the order in which its members are
destroyed. -/
def MRequest.guardBufs (r : MRequest) : List BufId :=
  (r.rpcBodyBuf.bufList ++ r.rpcHeaderBuf.bufList).map fun g => g.buf

def MConnection.parserBufs (c : MConnection) : List BufId := c.theParser.req.guardBufs

def MConnection.queueBufs (c : MConnection) : List BufId := c.sendBuf.bufList.map fun g => g.buf

namespace Server

/-- The call of `parse_connection` that is under way. -/
def parsing (s : Server) (w : Receiving) (loop : Loop) (length : ℤ) (reqs : List MRequest) :
    ParseState :=
  ⟨loop, s.obj w.conn, w.buf, s.heap w.buf, length, reqs⟩

def parsed (s : Server) (w : Receiving) (p : ParseState) : Server :=
  ((s.setObj w.conn p.conn).setBuf w.buf p.buf).goto (.parse w p.loop p.length p.reqs)

/-- `recv` has written `bytes` through `Buf()`. -/
def received (s : Server) (w : Receiving) (bytes : List UInt8) : Server :=
  if bytes = [] then ((s.giveBack [w.buf]).closeConn w.fd).goto .idle
  else (s.setBuf w.buf ((s.heap w.buf).write bytes)).goto
    (.parse w .parseConnection bytes.length [])

/-- The `switch` on `errno` after `recv`. -/
def recvFailed (s : Server) (w : Receiving) (errno : ℕ) : Server :=
  if errno = EAGAIN ||| EWOULDBLOCK then (s.giveBack [w.buf]).goto .idle
  else if errno = EINTR then (s.giveBack [w.buf]).goto (.recvRun w.fd w.conn)
  else ((s.giveBack [w.buf]).closeConn w.fd).goto .idle

/-- `do_request` comes to the request `r`: a response takes a buffer, if the pool has one. -/
def request (parse : List UInt8 → RpcHeader) (s : Server) (w : Receiving) (held : List MRequest)
    (r : MRequest) (todo : List MRequest) : Server :=
  match MgServer.doRequest parse s.store r, s.pool with
  | some bytes, out :: pool =>
    (({ s with pool := pool }).setBuf out ((s.heap out).write bytes)).goto
      (.doResponse w held todo out bytes.length)
  | _, _ => s.goto (.doRequest w held todo)

/-- `do_response` after its `send`. Where it closes the connection it returns without giving the
buffer back. -/
def responded (s : Server) (w : Receiving) (held todo : List MRequest) (out : BufId) (remain : ℤ)
    (o : SysResult) : Server :=
  match directSend o with
  | none => (s.closeConn w.fd).goto (.doRequest w held todo)
  | some k =>
    let buf := (s.heap out).consume k
    let conn := s.obj w.conn
    let s := s.setBuf out buf
    (if 0 < remain - k then
      s.setObj w.conn { conn with sendBuf := conn.sendBuf.append (.new out buf (remain - k)) }
    else s.giveBack [out]).goto (.doRequest w held todo)

/-- A turn of the loop of `SendBuf` after its `send`. -/
def flushed (s : Server) (fd : ℤ) (c : ConnId) (data : Region) (r : MReadBuf) (o : SysResult) :
    Server :=
  match queuedSend r data.size o with
  | none => (s.closeConn fd).goto .idle
  | some (g, r) =>
    (s.setObj c { s.obj c with sendBuf := r }).giveBack (g.toList.map fun g => g.buf)

/-- The server goes on by itself. -/
def run (parse : List UInt8 → RpcHeader) (s : Server) : Option Server :=
  match s.ctrl with
  | .recvRun fd c =>
    -- `Allocate` is tried again up to two times, but nobody gives a buffer back in between
    match s.pool with
    | [] => some ((s.closeConn fd).goto .idle)
    | b :: pool => some (({ s with pool := pool }).goto (.recv ⟨fd, c, b⟩))
  | .parse w loop length reqs =>
    match (s.parsing w loop length reqs).step with
    | some p => some (s.parsed w p)
    | none =>
      if reqs = [] then some (s.goto (.recvRun w.fd w.conn)) else some (s.goto (.doRequest w reqs reqs))
  | .doRequest w held (r :: todo) => some (s.request parse w held r todo)
  | .doRequest w held [] =>
    some ((s.giveBack (held.flatMap MRequest.guardBufs)).goto (.recvRun w.fd w.conn))
  | .sendBuf _ c => if (s.obj c).sendBuf.next = none then some (s.goto .idle) else none
  | _ => none

/-- `send` and `recv` fail with `EBADF` on a descriptor that has been closed. -/
def Open (s : Server) (fd : ℤ) (c : ConnId) : Prop := s.conns fd = some c

instance (s : Server) (fd : ℤ) (c : ConnId) : Decidable (s.Open fd c) := by
  unfold Open; infer_instance

/-- `none` where the event cannot happen. -/
def step (parse : List UInt8 → RpcHeader) (s : Server) (e : Event) : Option Server :=
  match e, s.ctrl with
  | .accept fd, .idle => some (s.createConn fd)
  | .epollin fd, .idle =>
    match s.conns fd with
    | none => some (s.closeConn fd)
    | some c => some (s.goto (.recvRun fd c))
  | .epollout fd, .idle =>
    match s.conns fd with
    | none => some (s.closeConn fd)
    | some c => some (s.goto (.sendBuf fd c))
  | .run, _ => s.run parse
  | .received bytes, .recv w =>
    if s.Open w.fd w.conn ∧ bytes.length ≤ (s.heap w.buf).remain then some (s.received w bytes) else none
  | .recvFailed errno, .recv w =>
    if s.Open w.fd w.conn ∨ errno = EBADF then some (s.recvFailed w errno) else none
  | .sent o, .doResponse w held todo out remain =>
    if o.ret ≤ remain ∧ (s.Open w.fd w.conn ∨ o.ret < 0 ∧ o.errno = EBADF) then
      some (s.responded w held todo out remain o)
    else none
  | .sent o, .sendBuf fd c =>
    match (s.obj c).sendBuf.next with
    | some (data, r) =>
      -- a negative size reaches `send` as a huge one
      if data.size < 0 ∨ o.ret ≤ data.size then some (s.flushed fd c data r o) else none
    | none => none
  | _, _ => none

/-- Everything that a step can do. -/
inductive Stepped (parse : List UInt8 → RpcHeader) (s : Server) : Event → Server → Prop
  | accept {fd : ℤ} (hctrl : s.ctrl = .idle) (hfd : s.conns fd = none) :
      Stepped parse s (.accept fd) (s.addConn fd)
  | ignored {e : Event} (hctrl : s.ctrl = .idle) : Stepped parse s e s
  | epollin {fd : ℤ} {c : ConnId} (hctrl : s.ctrl = .idle) (hfd : s.conns fd = some c) :
      Stepped parse s (.epollin fd) (s.goto (.recvRun fd c))
  | epollout {fd : ℤ} {c : ConnId} (hctrl : s.ctrl = .idle) (hfd : s.conns fd = some c) :
      Stepped parse s (.epollout fd) (s.goto (.sendBuf fd c))
  | exhausted {fd : ℤ} {c : ConnId} (hctrl : s.ctrl = .recvRun fd c) (hpool : s.pool = []) :
      Stepped parse s .run ((s.closeConn fd).goto .idle)
  | allocate {fd : ℤ} {c : ConnId} {b : BufId} {pool : List BufId} (hctrl : s.ctrl = .recvRun fd c)
      (hpool : s.pool = b :: pool) :
      Stepped parse s .run (({ s with pool := pool }).goto (.recv ⟨fd, c, b⟩))
  | received {w : Receiving} {bytes : List UInt8} (hctrl : s.ctrl = .recv w)
      (hopen : s.Open w.fd w.conn) (hne : bytes ≠ [])
      (hlen : bytes.length ≤ (s.heap w.buf).remain) :
      Stepped parse s (.received bytes) ((s.setBuf w.buf ((s.heap w.buf).write bytes)).goto
        (.parse w .parseConnection bytes.length []))
  | retry {e : Event} {w : Receiving} {ctrl : Ctrl} (hctrl : s.ctrl = .recv w)
      (hnext : ctrl = .idle ∨ ctrl = .recvRun w.fd w.conn) :
      Stepped parse s e ((s.giveBack [w.buf]).goto ctrl)
  | hangUp {e : Event} {w : Receiving} (hctrl : s.ctrl = .recv w)
      (he : e = .received [] ∨ ∃ errno, e = .recvFailed errno ∧ errno ≠ EAGAIN ||| EWOULDBLOCK ∧
        errno ≠ EINTR) :
      Stepped parse s e (((s.giveBack [w.buf]).closeConn w.fd).goto .idle)
  | parse {w : Receiving} {loop : Loop} {length : ℤ} {reqs : List MRequest} {p : ParseState}
      (hctrl : s.ctrl = .parse w loop length reqs)
      (hp : (s.parsing w loop length reqs).step = some p) : Stepped parse s .run (s.parsed w p)
  | parsed {w : Receiving} {loop : Loop} {length : ℤ} {reqs : List MRequest} {ctrl : Ctrl}
      (hctrl : s.ctrl = .parse w loop length reqs)
      (hp : (s.parsing w loop length reqs).step = none)
      (hnext : reqs = [] ∧ ctrl = .recvRun w.fd w.conn ∨ ctrl = .doRequest w reqs reqs) :
      Stepped parse s .run (s.goto ctrl)
  | skip {w : Receiving} {held todo : List MRequest} {r : MRequest}
      (hctrl : s.ctrl = .doRequest w held (r :: todo)) :
      Stepped parse s .run (s.goto (.doRequest w held todo))
  | respond {w : Receiving} {held todo : List MRequest} {r : MRequest} {bytes : List UInt8}
      {out : BufId} {pool : List BufId} (hctrl : s.ctrl = .doRequest w held (r :: todo))
      (hpool : s.pool = out :: pool) :
      Stepped parse s .run ((({ s with pool := pool }).setBuf out ((s.heap out).write bytes)).goto
        (.doResponse w held todo out bytes.length))
  | destroy {w : Receiving} {held : List MRequest} (hctrl : s.ctrl = .doRequest w held []) :
      Stepped parse s .run ((s.giveBack (held.flatMap MRequest.guardBufs)).goto
        (.recvRun w.fd w.conn))
  | refused {w : Receiving} {held todo : List MRequest} {out : BufId} {remain : ℤ} {o : SysResult}
      (hctrl : s.ctrl = .doResponse w held todo out remain) (ho : directSend o = none) :
      Stepped parse s (.sent o) ((s.closeConn w.fd).goto (.doRequest w held todo))
  | queued {w : Receiving} {held todo : List MRequest} {out : BufId} {remain k : ℤ} {o : SysResult}
      (hctrl : s.ctrl = .doResponse w held todo out remain) (ho : directSend o = some k)
      (hk : 0 < remain - k) :
      Stepped parse s (.sent o) (((s.setBuf out ((s.heap out).consume k)).setObj w.conn
        { s.obj w.conn with
          sendBuf := (s.obj w.conn).sendBuf.append
            (.new out ((s.heap out).consume k) (remain - k)) }).goto (.doRequest w held todo))
  | answered {w : Receiving} {held todo : List MRequest} {out : BufId} {remain k : ℤ}
      {o : SysResult} (hctrl : s.ctrl = .doResponse w held todo out remain)
      (ho : directSend o = some k) (hk : ¬ 0 < remain - k) :
      Stepped parse s (.sent o) (((s.setBuf out ((s.heap out).consume k)).giveBack [out]).goto
        (.doRequest w held todo))
  | drained {fd : ℤ} {c : ConnId} (hctrl : s.ctrl = .sendBuf fd c) :
      Stepped parse s .run (s.goto .idle)
  | broken {fd : ℤ} {c : ConnId} {data : Region} {r : MReadBuf} {o : SysResult}
      (hctrl : s.ctrl = .sendBuf fd c) (hnext : (s.obj c).sendBuf.next = some (data, r))
      (ho : queuedSend r data.size o = none) :
      Stepped parse s (.sent o) ((s.closeConn fd).goto .idle)
  | flushed {fd : ℤ} {c : ConnId} {data : Region} {r r' : MReadBuf} {g : Option MBufferGuard}
      {o : SysResult} (hctrl : s.ctrl = .sendBuf fd c)
      (hnext : (s.obj c).sendBuf.next = some (data, r))
      (ho : queuedSend r data.size o = some (g, r')) :
      Stepped parse s (.sent o) ((s.setObj c { s.obj c with sendBuf := r' }).giveBack
        (g.toList.map fun g => g.buf))

section Inversion

variable {parse : List UInt8 → RpcHeader} {s t : Server}

theorem closeConn_of_none {fd : ℤ} (h : s.conns fd = none) : s.closeConn fd = s := by
  rw [closeConn, ← h, Function.update_eq_self]

theorem stepped_of_request {w : Receiving} {held todo : List MRequest} {r : MRequest}
    (hctrl : s.ctrl = .doRequest w held (r :: todo)) :
    Stepped parse s .run (s.request parse w held r todo) := by
  unfold request
  split
  · exact .respond hctrl ‹_›
  · exact .skip hctrl

theorem stepped_of_run (h : s.run parse = some t) : Stepped parse s .run t := by
  unfold run at h
  split at h
  · split at h <;> cases h
    · exact .exhausted ‹_› ‹_›
    · exact .allocate ‹_› ‹_›
  · split at h
    · cases h
      exact .parse ‹_› ‹_›
    · split_ifs at h with hreqs <;> cases h
      · exact .parsed ‹_› ‹_› (Or.inl ⟨hreqs, rfl⟩)
      · exact .parsed ‹_› ‹_› (Or.inr rfl)
  · cases h
    exact stepped_of_request ‹_›
  · cases h
    exact .destroy ‹_›
  · split_ifs at h
    cases h
    exact .drained ‹_›
  · cases h

theorem stepped_of_received {w : Receiving} {bytes : List UInt8} (hctrl : s.ctrl = .recv w)
    (hopen : s.Open w.fd w.conn) (hlen : bytes.length ≤ (s.heap w.buf).remain) :
    Stepped parse s (.received bytes) (s.received w bytes) := by
  unfold received
  split_ifs with hne
  · exact .hangUp hctrl (Or.inl (by rw [hne]))
  · exact .received hctrl hopen hne hlen

theorem stepped_of_recvFailed {w : Receiving} {errno : ℕ} (hctrl : s.ctrl = .recv w) :
    Stepped parse s (.recvFailed errno) (s.recvFailed w errno) := by
  unfold recvFailed
  split_ifs with hagain hintr
  · exact .retry hctrl (Or.inl rfl)
  · exact .retry hctrl (Or.inr rfl)
  · exact .hangUp hctrl (Or.inr ⟨errno, rfl, hagain, hintr⟩)

theorem stepped_of_responded {w : Receiving} {held todo : List MRequest} {out : BufId} {remain : ℤ}
    {o : SysResult} (hctrl : s.ctrl = .doResponse w held todo out remain) :
    Stepped parse s (.sent o) (s.responded w held todo out remain o) := by
  unfold responded
  cases ho : directSend o with
  | none => exact .refused hctrl ho
  | some k =>
    dsimp only
    split_ifs with hk
    · exact .queued hctrl ho hk
    · exact .answered hctrl ho hk

theorem stepped_of_flushed {fd : ℤ} {c : ConnId} {data : Region} {r : MReadBuf} {o : SysResult}
    (hctrl : s.ctrl = .sendBuf fd c) (hnext : (s.obj c).sendBuf.next = some (data, r)) :
    Stepped parse s (.sent o) (s.flushed fd c data r o) := by
  unfold flushed
  split
  · exact .broken hctrl hnext ‹_›
  · exact .flushed hctrl hnext ‹_›

theorem stepped_of_step {e : Event} (h : s.step parse e = some t) : Stepped parse s e t := by
  unfold step at h
  split at h
  · cases h
    unfold createConn
    split_ifs with hfd
    · exact .accept ‹_› hfd
    · exact .ignored ‹_›
  · split at h <;> cases h
    · rw [closeConn_of_none ‹_›]
      exact .ignored ‹_›
    · exact .epollin ‹_› ‹_›
  · split at h <;> cases h
    · rw [closeConn_of_none ‹_›]
      exact .ignored ‹_›
    · exact .epollout ‹_› ‹_›
  · exact stepped_of_run h
  · split_ifs at h with hcond
    cases h
    exact stepped_of_received ‹_› hcond.1 hcond.2
  · split_ifs at h
    cases h
    exact stepped_of_recvFailed ‹_›
  · split_ifs at h
    cases h
    exact stepped_of_responded ‹_›
  · split at h
    · split_ifs at h
      cases h
      exact stepped_of_flushed ‹_› ‹_›
    · cases h
  · cases h

end Inversion

/-- What protobuf makes of the header that `client.cpp` sends, and of an empty one. -/
def clientParse (bytes : List UInt8) : RpcHeader :=
  if bytes = clientMessage.header then ⟨some RPC_TYPE_RPC_REQUEST, some HELLO, none, []⟩
  else ⟨none, none, none, []⟩

/-- The message of `client.cpp` comes in one chunk, and its response is sent at once. -/
def wholeEvents : List Event :=
  [.accept 7, .epollin 7, .run, .received clientMessage.encode, .run, .run, .run, .run, .run, .run,
    .run, .sent ⟨28, 0⟩, .run]

end Server

end MgRaffle.MgServer
