import MgRaffle.MgServer.Dispatch
import MgRaffle.MgServer.ParserValues

namespace MgRaffle.MgServer
open Collector Stepping

/-- What `do_request` reads of a request. -/
def MRequest.message (store : BufId → List UInt8) (r : MRequest) : Message :=
  ⟨r.rpcHeaderBuf.bounded store, r.rpcBodyBuf.bounded store⟩

/-- A message, and the response that it asks for. -/
abbrev Answer := Message × Option (List UInt8)

def MRequest.answer (parse : List UInt8 → RpcHeader) (store : BufId → List UInt8) (r : MRequest) :
    Answer :=
  (r.message store, doRequest parse store r)

def Message.response (parse : List UInt8 → RpcHeader) (msg : Message) : Option (List UInt8) :=
  if (parse msg.header).getFunc = HELLO then
    some (responseBytes { parse msg.header with type := some RPC_TYPE_RPC_RESPONSE } (helloTask .new))
  else none

def Content.answer (parse : List UInt8 → RpcHeader) (c : Content) : Answer :=
  (c.message, c.message.response parse)

def Frame.answer (parse : List UInt8 → RpcHeader) (f : Frame) : Answer := f.content.answer parse

/-- The requests of a connection that `do_request` has not come to. -/
def Ctrl.waits (ctrl : Ctrl) (c : ConnId) : List MRequest :=
  match ctrl with
  | .doRequest w _ todo => if w.conn = c then todo else []
  | .doResponse w _ todo _ _ => if w.conn = c then todo else []
  | _ => []

/-- The bytes of a connection are being parsed. -/
def Ctrl.Parses (ctrl : Ctrl) (c : ConnId) : Prop :=
  match ctrl with
  | .parse w _ _ _ => w.conn = c
  | _ => False

namespace Server

/-- What a step receives, and from which connection. -/
def receives (s : Server) (e : Event) : Option (ConnId × List UInt8) :=
  match e, s.ctrl with
  | .received bytes, .recv w => some (w.conn, bytes)
  | _, _ => none

/-- The request that a step deals with, and its connection. -/
def handles (parse : List UInt8 → RpcHeader) (s : Server) (e : Event) :
    Option (ConnId × List Answer) :=
  match e, s.ctrl with
  | .run, .doRequest w _ (r :: _) => some (w.conn, [r.answer parse s.store])
  | _, _ => none

/-- What a step writes, and to which buffer. -/
def writes (parse : List UInt8 → RpcHeader) (s : Server) (e : Event) :
    Option (BufId × List UInt8) :=
  match e, s.ctrl with
  | .received bytes, .recv w => some (w.buf, bytes)
  | .run, .doRequest _ _ (r :: _) =>
    match MgServer.doRequest parse s.store r, s.pool with
    | some bytes, out :: _ => some (out, bytes)
    | _, _ => none
  | _, _ => none

/-- What is written goes inside a buffer that no guard refers to. -/
def Apart (parse : List UInt8 → RpcHeader) (s : Server) (e : Event) : Prop :=
  ∀ p ∈ s.writes parse e, p.1 ∉ s.guardBufs ∧ 0 ≤ (s.heap p.1).curIndex ∧
    (s.heap p.1).curIndex + p.2.length ≤ (s.heap p.1).storage.length

instance (parse : List UInt8 → RpcHeader) (s : Server) (e : Event) :
    Decidable (s.Apart parse e) := by
  unfold Apart; infer_instance

/-- The connections that the server refers to exist, and what `do_request` has not come to is
guarded. -/
structure Known (s : Server) : Prop where
  mapped : ∀ fd c, s.conns fd = some c → c < s.objs.length
  served : ∀ fd c, s.ctrl.serving = some (fd, c) → c < s.objs.length
  waiting : ∀ c, ∀ r ∈ s.ctrl.waits c, r.guardBufs ⊆ s.ctrl.guardBufs

end Server

/-- What has been recorded, and one more entry for a connection. -/
def record {α : Type*} (f : ConnId → List α) : Option (ConnId × List α) → ConnId → List α
  | none => f
  | some (c, xs) => Function.update f c (f c ++ xs)

/-- The server, with what `recv` has returned on each connection and what `do_request` has dealt
with. -/
structure Traced where
  server : Server
  stream : ConnId → List UInt8
  handled : ConnId → List Answer

namespace Traced

def start : Traced := ⟨.new, fun _ => [], fun _ => []⟩

def step (parse : List UInt8 → RpcHeader) (s : Traced) (e : Event) : Option Traced :=
  (s.server.step parse e).map fun t =>
    ⟨t, record s.stream (s.server.receives e), record s.handled (s.server.handles parse e)⟩

end Traced

section Values

variable {store store' : BufId → List UInt8} {parse : List UInt8 → RpcHeader} {r : MRequest}
  {c c' : MConnection}

/-- What a connection keeps of its input. -/
def MConnection.input (c : MConnection) : ParseType × ℤ × List UInt8 × MParser :=
  (c.parseType, c.magicRemain, c.magic, c.theParser)

theorem MConnection.progress_of_input (h : c.input = c'.input) :
    c.progress store = c'.progress store := by
  simp only [input, Prod.mk.injEq] at h
  obtain ⟨htype, hremain, hmagic, hparser⟩ := h
  simp only [progress, htype, hremain, hmagic, hparser]

theorem MConnection.theParser_of_input (h : c.input = c'.input) : c.theParser = c'.theParser :=
  congrArg (fun p => p.2.2.2) h

theorem MRequest.Unread.answer_eq (h : r.Unread store) :
    r.answer parse store = (r.content store).answer parse := by
  rw [answer, message, doRequest, h.header.bounded_eq, h.body.bounded_eq]
  rfl

/-- The bytes under the guards of a request. -/
theorem MRequest.mem_guardBufs (r : MRequest) {g : MBufferGuard}
    (hg : g ∈ r.rpcHeaderBuf.bufList ∨ g ∈ r.rpcBodyBuf.bufList) : g.buf ∈ r.guardBufs := by
  apply List.mem_map.mpr
  exact ⟨g, List.mem_append.mpr hg.symm, rfl⟩

theorem MRequest.content_congr (hs : ∀ b ∈ r.guardBufs, store b = store' b) :
    r.content store = r.content store' := by
  ext1
  · rfl
  · exact pending_congr fun _ hg => hs _ (r.mem_guardBufs (Or.inl hg))
  · exact pending_congr fun _ hg => hs _ (r.mem_guardBufs (Or.inr hg))

theorem MRequest.Unread.congr (h : r.Unread store) (hs : ∀ b ∈ r.guardBufs, store b = store' b) :
    r.Unread store' :=
  ⟨h.header.congr fun _ hg => hs _ (r.mem_guardBufs (Or.inl hg)),
    h.body.congr fun _ hg => hs _ (r.mem_guardBufs (Or.inr hg))⟩

theorem MConnection.progress_congr (hs : ∀ b ∈ c.parserBufs, store b = store' b) :
    c.progress store = c.progress store' := by
  simp only [progress, c.theParser.req.content_congr hs]

end Values

namespace Server

variable {parse : List UInt8 → RpcHeader} {s t : Server} {e : Event} {c : ConnId}

theorem handles_request {w : Receiving} {held todo : List MRequest} {r : MRequest}
    (hctrl : s.ctrl = .doRequest w held (r :: todo)) :
    s.handles parse .run = some (w.conn, [r.answer parse s.store]) := by
  simp only [handles, hctrl]

theorem length_objs_step (h : Stepped parse s e t) : s.objs.length ≤ t.objs.length := by
  cases h <;> simp [Server.parsed]

/-- A request that is waiting waited before, or has just been cut. -/
theorem waits_step (h : Stepped parse s e t)
    (hs : ∀ c, ∀ r ∈ s.ctrl.waits c, r.guardBufs ⊆ s.ctrl.guardBufs) :
    ∀ c, ∀ r ∈ t.ctrl.waits c, r.guardBufs ⊆ t.ctrl.guardBufs := by
  intro c r hr
  cases h with
  | ignored => exact hs c r hr
  | accept hctrl =>
    rw [addConn_ctrl, hctrl] at hr
    cases hr
  | retry hctrl hnext => rcases hnext with rfl | rfl <;> cases hr
  | parsed hctrl hp hnext =>
    -- the requests that the call has cut are the ones that `do_request` holds
    rcases hnext with ⟨-, rfl⟩ | rfl
    · cases hr
    · simp only [goto_ctrl, Ctrl.waits] at hr
      split_ifs at hr
      · exact fun x hx => List.mem_flatMap.mpr ⟨r, hr, hx⟩
      · cases hr
  | skip hctrl =>
    -- of what `do_request` holds only the first one does not wait any longer
    have hold := hs c r
    rw [hctrl] at hold
    simp only [goto_ctrl, Ctrl.waits] at hr hold
    split_ifs at hr hold
    · exact hold (List.mem_cons_of_mem _ hr)
    · cases hr
  | respond hctrl hpool =>
    have hold := hs c r
    rw [hctrl] at hold
    simp only [goto_ctrl, Ctrl.waits] at hr hold
    split_ifs at hr hold
    · exact hold (List.mem_cons_of_mem _ hr)
    · cases hr
  | destroy hctrl => cases hr
  | refused hctrl ho =>
    have hold := hs c r
    rw [hctrl] at hold
    exact hold hr
  | queued hctrl ho hk =>
    have hold := hs c r
    rw [hctrl] at hold
    exact hold hr
  | answered hctrl ho hk =>
    have hold := hs c r
    rw [hctrl] at hold
    exact hold hr
  | flushed hctrl =>
    simp only [giveBack_ctrl, setObj_ctrl, hctrl] at hr
    cases hr
  | _ => cases hr

theorem known_step (h : s.Known) (hstep : s.step parse e = some t) : t.Known := by
  have hst := stepped_of_step hstep
  have hlen := length_objs_step hst
  refine ⟨?_, ?_, waits_step hst h.waiting⟩
  · intro fd c hfd
    cases touches_of_step hstep with
    | accepts fd' he hctrl ht =>
      by_cases heq : s.conns fd = some c
      · exact (h.mapped fd c heq).trans_le hlen
      · -- the connection is the new one
        rw [ht, createConn] at hfd ⊢
        split_ifs at hfd ⊢ with hnew
        · rw [addConn_conns, Function.update_apply] at hfd
          split_ifs at hfd
          · cases hfd
            simp
          · exact absurd hfd heq
        · exact absurd hfd heq
    | absent fd' he hctrl hnone hcloses ht =>
      rw [ht] at hfd ⊢
      exact h.mapped fd c hfd
    | enters fd' c' he hctrl hopen huses hcloses hconns hserving =>
      rw [hconns] at hfd
      exact (h.mapped fd c hfd).trans_le hlen
    | stays p hserving hcloses huses hconns hnext =>
      rw [hconns] at hfd
      exact (h.mapped fd c hfd).trans_le hlen
    | closes p hserving hcloses huses hconns hnext =>
      rw [hconns] at hfd
      by_cases heq : fd = p.1
      · rw [heq, Function.update_self] at hfd
        cases hfd
      · rw [Function.update_of_ne heq] at hfd
        exact (h.mapped fd c hfd).trans_le hlen
  · intro fd c hfd
    cases touches_of_step hstep with
    | accepts fd' he hctrl ht =>
      rw [ht, createConn] at hfd
      split_ifs at hfd
      · rw [addConn_ctrl, hctrl] at hfd
        cases hfd
      · rw [hctrl] at hfd
        cases hfd
    | absent fd' he hctrl hnone hcloses ht =>
      rw [ht, hctrl] at hfd
      cases hfd
    | enters fd' c' he hctrl hopen huses hcloses hconns hserving =>
      rw [hserving] at hfd
      cases hfd
      exact (h.mapped fd c hopen).trans_le hlen
    | stays p hserving hcloses huses hconns hnext =>
      rcases hnext with ⟨hsame, -⟩ | ⟨hidle, -⟩
      · rw [hsame] at hfd
        cases hfd
        exact (h.served fd c hserving).trans_le hlen
      · rw [hidle] at hfd
        cases hfd
    | closes p hserving hcloses huses hconns hnext =>
      rcases hnext with ⟨-, hsame, -⟩ | ⟨-, hidle⟩
      · rw [hsame] at hfd
        cases hfd
        exact (h.served fd c hserving).trans_le hlen
      · rw [hidle] at hfd
        cases hfd

/-- Between two calls of `parse_connection` on it: the connection has read its stream up to the
state `t` of the frame reader, and its frames `fs` are those handled and those that wait. -/
structure Keeps (parse : List UInt8 → RpcHeader) (s : Server) (c : ConnId) (handled : List Answer)
    (waits : List MRequest) (t : State Part UInt8) (fs : List Frame) : Prop where
  progress : (s.obj c).progress s.store = progressOf t
  unread : (s.obj c).theParser.req.Unread s.store
  waiting : ∀ r ∈ waits, r.Unread s.store
  answers : handled ++ waits.map (MRequest.answer parse s.store) = fs.map (Frame.answer parse)

/-- A call that is under way is on the way of the frame reader to `t`. -/
structure Midway (parse : List UInt8 → RpcHeader) (store : BufId → List UInt8) (m : ParseState)
    (handled : List Answer) (t : State Part UInt8) (fs : List Frame) : Prop where
  ready : m.Ready store
  follows : ∃ u rest fs₁ fs₂ o, frameReader.Reads u rest t o ∧ Follows (m.view store) u rest fs₂ ∧
    fs = fs₁ ++ (fs₂ ++ o) ∧ handled = fs₁.map (Frame.answer parse)

variable {s' : Server} {handled : List Answer} {waits : List MRequest} {u : State Part UInt8}
  {fs : List Frame}

theorem parserBufs_subset (s : Server) (c : ConnId) : (s.obj c).parserBufs ⊆ s.guardBufs := by
  intro b hb
  apply List.mem_append_left
  apply s.mem_objs_of_mem_obj MConnection.guardBufs c rfl
  exact List.mem_append_left _ hb

theorem Known.waits_subset (h : s.Known) {r : MRequest} (hr : r ∈ s.ctrl.waits c) :
    r.guardBufs ⊆ s.guardBufs :=
  fun _ hb => List.mem_append_right _ (h.waiting c r hr hb)

/-- A step that writes only where no guard refers to changes nothing for a connection whose input
it leaves alone. -/
theorem Keeps.transfer (h : Keeps parse s c handled waits u fs)
    (hinput : (s'.obj c).input = (s.obj c).input) (hstore : ∀ b ∈ s.guardBufs, s'.store b = s.store b)
    (hwaits : ∀ r ∈ waits, r.guardBufs ⊆ s.guardBufs) : Keeps parse s' c handled waits u fs where
  progress := by
    rw [MConnection.progress_of_input hinput, ← h.progress]
    exact MConnection.progress_congr fun b hb => hstore b (s.parserBufs_subset c hb)
  unread := by
    rw [MConnection.theParser_of_input hinput]
    exact h.unread.congr fun b hb => (hstore b (s.parserBufs_subset c hb)).symm
  waiting := fun r hr => (h.waiting r hr).congr fun b hb => (hstore b (hwaits r hr hb)).symm
  answers := by
    rw [← h.answers]
    congr 1
    apply List.map_congr_left
    intro r hr
    have hsame (b : BufId) (hb : b ∈ r.guardBufs) : s.store b = s'.store b :=
      (hstore b (hwaits r hr hb)).symm
    rw [((h.waiting r hr).congr hsame).answer_eq, (h.waiting r hr).answer_eq, r.content_congr hsame]

/-- `do_request` comes to the next request. -/
theorem Keeps.next {r : MRequest} (h : Keeps parse s c handled (r :: waits) u fs) :
    Keeps parse s c (handled ++ [r.answer parse s.store]) waits u fs where
  progress := h.progress
  unread := h.unread
  waiting := fun r' hr' => h.waiting r' (List.mem_cons_of_mem _ hr')
  answers := by
    rw [List.append_assoc, ← h.answers]
    rfl

end Server

/-- Every connection has read what its own stream spells. -/
structure Traced.Isolated (parse : List UInt8 → RpcHeader) (s : Traced) : Prop where
  known : s.server.Known
  keeps : ∀ c t fs, frameReader.Reads fresh (s.stream c) t fs → ¬ s.server.ctrl.Parses c →
    Server.Keeps parse s.server c (s.handled c) (s.server.ctrl.waits c) t fs
  midway : ∀ w loop length reqs, s.server.ctrl = .parse w loop length reqs → ∀ t fs,
    frameReader.Reads fresh (s.stream w.conn) t fs →
    Server.Midway parse s.server.store (s.server.parsing w loop length reqs) (s.handled w.conn) t fs

namespace Traced
open Server

variable {parse : List UInt8 → RpcHeader} {s : Traced} {t : Server} {e : Event}

theorem isolated_start : start.Isolated parse where
  known := ⟨fun _ _ h => (by cases h), fun _ _ h => (by cases h), fun _ _ h => (by cases h)⟩
  keeps := by
    intro c t fs hr hctrl
    obtain ⟨rfl, rfl⟩ := reads_nil_iff.mp hr
    exact ⟨rfl, ⟨unread_new, unread_new⟩, fun _ h => (by cases h), rfl⟩
  midway := fun _ _ _ _ h => (by cases h)

/-- A step between two calls of `parse_connection` that handles no request. -/
theorem Isolated.quiet (h : s.Isolated parse) (hknown : t.Known) {ctrl ctrl' : Ctrl}
    (hctrl : s.server.ctrl = ctrl) (hctrl' : t.ctrl = ctrl')
    (hstream : record s.stream (s.server.receives e) = s.stream)
    (hhandled : record s.handled (s.server.handles parse e) = s.handled)
    (hparses : ∀ c, ¬ ctrl.Parses c) (hparses' : ∀ c, ¬ ctrl'.Parses c)
    (hwaits : ∀ c, ctrl'.waits c = ctrl.waits c)
    (hinput : ∀ c, (t.obj c).input = (s.server.obj c).input)
    (hstore : ∀ b ∈ s.server.guardBufs, t.store b = s.server.store b) :
    (⟨t, record s.stream (s.server.receives e), record s.handled (s.server.handles parse e)⟩ :
      Traced).Isolated parse where
  known := hknown
  keeps := by
    intro c u fs hr _
    have hold := h.keeps c u fs
    rw [hctrl] at hold
    rw [hstream] at hr
    rw [hctrl', hwaits c, hhandled]
    apply (hold hr (hparses c)).transfer (hinput c) hstore
    rw [← hctrl]
    exact fun r hr => h.known.waits_subset hr
  midway := by
    intro w loop length reqs hparse
    rw [hctrl'] at hparse
    exact absurd (show ctrl'.Parses w.conn by rw [hparse]; exact rfl) (hparses' w.conn)

section Moves

variable {q : Server} {b : BufId} {buf : MBuffer} {c d : ConnId} {conn : MConnection}

theorem store_setBuf_of_storage (h : buf.storage = (q.heap b).storage) :
    (q.setBuf b buf).store = q.store := by
  funext x
  by_cases hx : x = b
  · rw [hx, store, setBuf_heap, Function.update_self, h]
    rfl
  · rw [store, setBuf_heap, Function.update_of_ne hx]
    rfl

theorem store_setBuf_consume {k : ℤ} : (q.setBuf b ((q.heap b).consume k)).store = q.store :=
  store_setBuf_of_storage rfl

theorem store_setBuf_of_ne {x : BufId} (h : x ≠ b) : (q.setBuf b buf).store x = q.store x := by
  rw [store, setBuf_heap, Function.update_of_ne h]
  rfl

theorem obj_setObj_cases : (q.setObj c conn).obj d = q.obj d ∨
    d = c ∧ (q.setObj c conn).obj d = conn := by
  by_cases hd : d = c
  · by_cases hc : c < q.objs.length
    · rw [hd, q.obj_setObj_self c conn hc]
      exact Or.inr ⟨rfl, rfl⟩
    · rw [setObj, List.set_eq_of_length_le (Nat.le_of_not_lt hc)]
      exact Or.inl rfl
  · exact Or.inl (q.obj_setObj_of_ne c conn hd)

/-- A part of the connections that an update leaves alone. -/
theorem part_setObj {α : Type*} {f : MConnection → α} (h : f conn = f (q.obj c)) :
    f ((q.setObj c conn).obj d) = f (q.obj d) := by
  rcases @obj_setObj_cases q c d conn with heq | ⟨rfl, heq⟩
  · rw [heq]
  · rw [heq, h]

theorem part_addConn {α : Type*} {f : MConnection → α} {fd : ℤ} (h : f (.new fd) = f (.new 0)) :
    f ((q.addConn fd).obj c) = f (q.obj c) := by
  rw [obj, obj, addConn_objs, List.getD_eq_getElem?_getD, List.getD_eq_getElem?_getD]
  rcases lt_trichotomy c q.objs.length with hlt | heq | hgt
  · rw [List.getElem?_append_left hlt]
  · rw [heq, List.getElem?_concat_length, List.getElem?_eq_none le_rfl]
    exact h
  · rw [List.getElem?_eq_none (by rw [List.length_append]; simpa using hgt),
      List.getElem?_eq_none hgt.le]

theorem storage_step {m n : ParseState} (h : m.step = some n) : n.buf.storage = m.buf.storage := by
  cases ParseState.stepped_of_step h with
  | magic => rfl
  | enter => rfl
  | header => rfl
  | rpcHeader => rfl
  | rpcContent =>
    unfold ParseState.rpcContentCase
    dsimp only
    split_ifs <;> rfl
  | spin => rfl
  | leave => rfl

theorem record_self {α : Type*} (f : ConnId → List α) (xs : List α) :
    record f (some (c, xs)) c = f c ++ xs :=
  Function.update_self _ _ _

theorem record_of_ne {α : Type*} (f : ConnId → List α) (xs : List α) (h : d ≠ c) :
    record f (some (c, xs)) d = f d :=
  Function.update_of_ne h _ _

theorem length_memcpy {dst src : List UInt8} {off : ℤ} (h : 0 ≤ off)
    (hfits : off + src.length ≤ dst.length) : (memcpy dst off src).length = dst.length := by
  simp only [memcpy, List.length_append, List.length_take, List.length_drop]
  omega

/-- What was written is read back. -/
theorem slice_memcpy {dst src : List UInt8} {off : ℤ}
    (hfits : off + src.length ≤ dst.length) : slice (memcpy dst off src) off src.length = src := by
  have hlen : (dst.take off.toNat).length = off.toNat := by
    rw [List.length_take]
    omega
  rw [slice, memcpy, List.append_assoc, Int.toNat_natCast, List.drop_left' hlen, List.take_left]

theorem record_nil {α : Type*} (f : ConnId → List α) : record f (some (c, [])) = f := by
  rw [record, List.append_nil, Function.update_eq_self]

theorem step_request {w : Receiving} {held todo : List MRequest} {r : MRequest}
    (hctrl : q.ctrl = .doRequest w held (r :: todo)) :
    q.step parse .run = some (q.request parse w held r todo) := by
  simp only [Server.step, Server.run, hctrl]

theorem store_request {w : Receiving} {held todo : List MRequest} {r : MRequest}
    (hctrl : q.ctrl = .doRequest w held (r :: todo)) (hc : q.Apart parse .run)
    (ht : q.step parse .run = some t) (hb : b ∈ q.guardBufs) : t.store b = q.store b := by
  rw [step_request hctrl, Option.some.injEq] at ht
  rw [← ht]
  unfold request
  split
  · rename_i bytes out pool hresponse hpool
    obtain ⟨hfree, -⟩ := hc (out, bytes) (by simp [writes, hctrl, hresponse, hpool])
    apply store_setBuf_of_ne
    rintro rfl
    exact hfree hb
  · rfl

/-- What is under a guard stays as it is. -/
theorem store_step (hc : q.Apart parse e) (ht : q.step parse e = some t) (hb : b ∈ q.guardBufs) :
    t.store b = q.store b := by
  cases stepped_of_step ht with
  | @received w bytes hctrl =>
    obtain ⟨hfree, -⟩ := hc (w.buf, bytes) (by simp [writes, hctrl])
    apply store_setBuf_of_ne
    rintro rfl
    exact hfree hb
  | parse hctrl hp => exact congrFun (store_setBuf_of_storage (storage_step hp)) b
  | skip hctrl => exact store_request hctrl hc ht hb
  | respond hctrl => exact store_request hctrl hc ht hb
  | queued => exact congrFun store_setBuf_consume b
  | answered => exact congrFun store_setBuf_consume b
  | _ => rfl

end Moves

/-- A chunk has been received, and `parse_connection` is called. -/
theorem Isolated.received (h : s.Isolated parse) {w : Receiving} {bytes : List UInt8}
    (hctrl : s.server.ctrl = .recv w) (hc : s.server.Apart parse (.received bytes)) (hknown : t.Known)
    (hstore : ∀ b ∈ s.server.guardBufs, t.store b = s.server.store b)
    (ht : t = (s.server.setBuf w.buf ((s.server.heap w.buf).write bytes)).goto
      (.parse w .parseConnection bytes.length [])) :
    (⟨t, record s.stream (some (w.conn, bytes)), s.handled⟩ : Traced).Isolated parse := by
  obtain ⟨-, hcur, hfits⟩ := hc (w.buf, bytes) (by simp [writes, hctrl])
  -- up to this chunk the connection is between two calls, like all the others
  have hold (c : ConnId) (u : State Part UInt8) (fs : List Frame)
      (hr : frameReader.Reads fresh (s.stream c) u fs) :
      Keeps parse t c (s.handled c) [] u fs := by
    have hkeeps := h.keeps c u fs hr
    rw [hctrl] at hkeeps
    apply (hkeeps id).transfer _ hstore (fun r hr => by cases hr)
    rw [ht]
    rfl
  refine ⟨hknown, ?_, ?_⟩
  · intro c u fs hr hparses
    have hne : c ≠ w.conn := by
      rintro rfl
      rw [ht] at hparses
      exact hparses rfl
    have hwaits : t.ctrl.waits c = [] := by rw [ht]; rfl
    have hr : frameReader.Reads fresh (record s.stream (some (w.conn, bytes)) c) u fs := hr
    rw [record_of_ne _ _ hne] at hr
    rw [hwaits]
    exact hold c u fs hr
  · intro w' loop length reqs hparse u fs hr
    rw [ht] at hparse
    cases hparse
    have hr : frameReader.Reads fresh (record s.stream (some (w.conn, bytes)) w.conn) u fs := hr
    rw [record_self] at hr
    -- the stream splits into what was read before, up to `v`, and the chunk
    obtain ⟨v, fs₁, fs₂, hr₁, hr₂, rfl⟩ := hr.split
    have hkeeps := hold w.conn v fs₁ hr₁
    have hheap : t.heap w.buf = (s.server.heap w.buf).write bytes := by
      rw [ht, goto_heap, setBuf_heap, Function.update_self]
    have hstorage : t.store w.buf = memcpy (s.server.heap w.buf).storage
        (s.server.heap w.buf).curIndex bytes := by
      rw [store, hheap, MBuffer.write]
    have hview : (t.parsing w .parseConnection bytes.length []).view t.store =
        ⟨.parseConnection, progressOf v, bytes, []⟩ := by
      ext1
      · rfl
      · exact hkeeps.progress
      · show slice (t.store w.buf) (t.heap w.buf).curIndex bytes.length = bytes
        rw [hstorage, hheap]
        exact slice_memcpy hfits
      · rfl
    refine ⟨⟨?_, ?_, Int.natCast_nonneg _, ?_, hkeeps.unread, fun r hr => by cases hr⟩, ?_⟩
    · rfl
    · show 0 ≤ (t.heap w.buf).curIndex
      rw [hheap]
      exact hcur
    · show (t.heap w.buf).curIndex + bytes.length ≤ (t.store w.buf).length
      rw [hstorage, hheap, length_memcpy hcur hfits]
      exact hfits
    · refine ⟨v, bytes, fs₁, [], fs₂, hr₂, ?_, rfl, ?_⟩
      · rw [hview]
        exact follows_call hr₁ bytes
      · rw [← hkeeps.answers]
        exact (List.append_nil _).symm

/-- A turn of the loops of `parse_connection`. -/
theorem Isolated.turn (h : s.Isolated parse) {w : Receiving} {loop : Loop} {length : ℤ}
    {reqs : List MRequest} {p : ParseState} (hctrl : s.server.ctrl = .parse w loop length reqs)
    (hp : (s.server.parsing w loop length reqs).step = some p) (hknown : t.Known)
    (ht : t = s.server.parsed w p) : (⟨t, s.stream, s.handled⟩ : Traced).Isolated parse := by
  have hid : p.id = w.buf := (ParseState.step_frame hp).1
  have hstore : t.store = s.server.store := by
    rw [ht]
    exact store_setBuf_of_storage (storage_step hp)
  refine ⟨hknown, ?_, ?_⟩
  · intro c u fs hr hparses
    have hne : c ≠ w.conn := by
      rintro rfl
      rw [ht] at hparses
      exact hparses rfl
    have hold := h.keeps c u fs hr (by rw [hctrl]; exact hne.symm)
    rw [hctrl] at hold
    rw [ht]
    apply hold.transfer _ _ (fun r hr => by cases hr)
    · exact congrArg MConnection.input (s.server.obj_setObj_of_ne w.conn p.conn hne)
    · intro b _
      rw [← ht, hstore]
  · intro w' loop' length' reqs' hparse u fs hr
    rw [ht] at hparse
    cases hparse
    have hserved : w.conn < s.server.objs.length := h.known.served w.fd w.conn (by rw [hctrl]; rfl)
    -- what the turn has put back into the server is what the next one takes out of it
    have hsame : t.parsing w p.loop p.length p.reqs = p := by
      rw [ht]
      rcases p with ⟨pl, pc, pid, pb, plen, pr⟩
      simp only [parsing, Server.parsed]
      cases hid
      congr 1
      · exact Server.obj_setObj_self s.server w.conn pc hserved
      · exact Function.update_self _ _ _
    obtain ⟨hready, u', rest, fs₁, fs₂, o, hreads, hfollows, rfl, hhandled⟩ :=
      h.midway w loop length reqs hctrl u fs hr
    -- the frame reader can go on, and so the remaining length is not negative
    have hremain : 0 < (s.server.parsing w loop length reqs).length →
        0 ≤ (s.server.parsing w loop length reqs).remain := by
      intro hpos
      rw [← hready.remain_eq]
      apply hfollows.remain_nonneg hreads
      have hrest : ((s.server.parsing w loop length reqs).view s.server.store).rest = rest :=
        congrArg ParseView.rest hfollows.eq
      rw [← hrest]
      exact fun hnil => hready.rest_eq_nil.mp hnil hpos
    obtain ⟨hready', hview⟩ := view_step hready hremain hp
    obtain ⟨v, rest', o₁, o₂, hreads', hfollows', rfl⟩ := hfollows.step hreads hview
    show Midway parse t.store (t.parsing w p.loop p.length p.reqs) _ _ _
    rw [hsame, hstore]
    refine ⟨hready', v, rest', fs₁, fs₂ ++ o₁, o₂, hreads', hfollows', ?_, hhandled⟩
    rw [List.append_assoc]

/-- `parse_connection` returns. -/
theorem Isolated.parsed (h : s.Isolated parse) {w : Receiving} {loop : Loop} {length : ℤ}
    {reqs : List MRequest} {ctrl : Ctrl} (hctrl : s.server.ctrl = .parse w loop length reqs)
    (hp : (s.server.parsing w loop length reqs).step = none) (hknown : t.Known)
    (hnext : reqs = [] ∧ ctrl = .recvRun w.fd w.conn ∨ ctrl = .doRequest w reqs reqs)
    (ht : t = s.server.goto ctrl) : (⟨t, s.stream, s.handled⟩ : Traced).Isolated parse := by
  have hwaits (c : ConnId) : t.ctrl.waits c = if w.conn = c then reqs else [] := by
    rw [ht]
    rcases hnext with ⟨rfl, rfl⟩ | rfl
    · exact (ite_self _).symm
    · rfl
  refine ⟨hknown, ?_, ?_⟩
  · intro c u fs hr _
    by_cases hc : w.conn = c
    · cases hc
      obtain ⟨hready, u', rest, fs₁, fs₂, o, hreads, hfollows, rfl, hhandled⟩ :=
        h.midway w loop length reqs hctrl u fs hr
      have hend := hready.rest_eq_nil.mpr (ParseState.length_of_step_eq_none hp)
      have heq := hfollows.eq
      -- nothing is left, so the frame reader has come to the end as well
      have hrest : rest = [] := (congrArg ParseView.rest heq).symm.trans hend
      rw [hrest] at hreads
      obtain ⟨rfl, rfl⟩ := reads_nil_iff.mp hreads
      have hcontents : reqs.map (MRequest.content s.server.store) = fs₂.map Frame.content :=
        congrArg ParseView.reqs heq
      rw [hwaits, if_pos rfl, ht]
      refine ⟨congrArg ParseView.progress heq, hready.request, hready.reqs, ?_⟩
      have hanswers : reqs.map (MRequest.answer parse s.server.store) =
          fs₂.map (Frame.answer parse) := by
        calc reqs.map (MRequest.answer parse s.server.store)
            = (reqs.map (MRequest.content s.server.store)).map (Content.answer parse) := by
              rw [List.map_map]
              exact List.map_congr_left fun r hr => (hready.reqs r hr).answer_eq
          _ = (fs₂.map Frame.content).map (Content.answer parse) := by rw [hcontents]
          _ = fs₂.map (Frame.answer parse) := List.map_map
      show s.handled w.conn ++ reqs.map (MRequest.answer parse s.server.store) = _
      rw [hanswers, hhandled, List.append_nil, List.map_append]
    · have hold := h.keeps c u fs hr (by rw [hctrl]; exact hc)
      rw [hctrl] at hold
      rw [hwaits, if_neg hc, ht]
      exact hold.transfer rfl (fun _ _ => rfl) fun r hr => by cases hr
  · intro w' loop' length' reqs' hparse
    rw [ht] at hparse
    rcases hnext with ⟨-, rfl⟩ | rfl <;> cases hparse

/-- `do_request` deals with a request. -/
theorem Isolated.handle (h : s.Isolated parse) {w : Receiving} {held todo : List MRequest}
    {r : MRequest} (hctrl : s.server.ctrl = .doRequest w held (r :: todo)) (hknown : t.Known)
    (hstore : ∀ b ∈ s.server.guardBufs, t.store b = s.server.store b)
    (ht : t = s.server.request parse w held r todo) :
    (⟨t, s.stream, record s.handled (some (w.conn, [r.answer parse s.server.store]))⟩ :
      Traced).Isolated parse := by
  have hwaits (c : ConnId) : t.ctrl.waits c = if w.conn = c then todo else [] := by
    rw [ht]
    unfold request
    split <;> rfl
  have hinput (c : ConnId) : (t.obj c).input = (s.server.obj c).input := by
    rw [ht]
    unfold request
    split <;> rfl
  refine ⟨hknown, ?_, ?_⟩
  · intro c u fs hr _
    have hold := h.keeps c u fs hr (by rw [hctrl]; exact id)
    have hguarded : ∀ r ∈ t.ctrl.waits c, r.guardBufs ⊆ s.server.guardBufs := by
      intro r' hr'
      rw [hwaits] at hr'
      apply h.known.waits_subset (c := c)
      rw [hctrl]
      show r' ∈ if w.conn = c then r :: todo else []
      split_ifs at hr' ⊢
      · exact List.mem_cons_of_mem _ hr'
      · exact hr'
    apply Keeps.transfer _ (hinput c) hstore hguarded
    rw [hctrl] at hold
    rw [hwaits]
    simp only [Ctrl.waits] at hold
    -- the request moves from those that wait to those handled, on its own connection only
    split_ifs at hold ⊢ with hconn
    · cases hconn
      show Keeps parse s.server w.conn
        (record s.handled (some (w.conn, [r.answer parse s.server.store])) w.conn) todo u fs
      rw [record_self]
      exact hold.next
    · show Keeps parse s.server c
        (record s.handled (some (w.conn, [r.answer parse s.server.store])) c) [] u fs
      rw [record_of_ne _ _ (Ne.symm hconn)]
      exact hold
  · intro w' loop' length' reqs' hparse
    rw [ht] at hparse
    unfold Server.request at hparse
    split at hparse <;> cases hparse

theorem isolated_step {s' : Traced} (h : s.Isolated parse) (hc : s.server.Apart parse e)
    (hstep : s.step parse e = some s') : s'.Isolated parse := by
  obtain ⟨t, ht, rfl⟩ := Option.map_eq_some_iff.mp hstep
  have hknown := known_step h.known ht
  have hframe : ∀ b ∈ s.server.guardBufs, t.store b = s.server.store b :=
    fun b hb => store_step hc ht hb
  -- only a chunk, a turn, the end of a call and a request matter; the rest is quiet
  cases stepped_of_step ht with
  | accept hctrl hfd =>
    exact h.quiet hknown hctrl hctrl rfl rfl (fun _ => id) (fun _ => id) (fun _ => rfl)
      (fun _ => part_addConn rfl) hframe
  | ignored hctrl =>
    apply h.quiet hknown hctrl hctrl _ _ (fun _ => id) (fun _ => id) (fun _ => rfl)
      (fun _ => rfl) hframe
    · simp [receives, hctrl, record]
    · simp [handles, hctrl, record]
  | epollin hctrl | epollout hctrl | refused hctrl | answered hctrl | broken hctrl =>
    exact h.quiet hknown hctrl rfl rfl rfl (fun _ => id) (fun _ => id) (fun _ => rfl)
      (fun _ => rfl) hframe
  | exhausted hctrl | allocate hctrl | drained hctrl =>
    exact h.quiet hknown hctrl rfl rfl (by simp [handles, hctrl, record]) (fun _ => id)
      (fun _ => id) (fun _ => rfl) (fun _ => rfl) hframe
  | @received w bytes hctrl hopen hne =>
    have hreceives : s.server.receives (.received bytes) = some (w.conn, bytes) := by
      simp [receives, hctrl]
    rw [hreceives]
    exact h.received hctrl hc hknown hframe rfl
  | @retry e w ctrl hctrl hnext =>
    have hstream : record s.stream (s.server.receives e) = s.stream := by
      cases e with
      | received bytes =>
        simp only [receives, hctrl]
        by_cases hnil : bytes = []
        · rw [hnil, record_nil]
        · -- a chunk would be parsed
          simp only [Server.step, hctrl, Server.received, if_neg hnil] at ht
          split_ifs at ht
          simp only [Option.some.injEq] at ht
          have hparse := congrArg Server.ctrl ht
          rcases hnext with rfl | rfl <;> cases hparse
      | _ => rfl
    apply h.quiet hknown hctrl rfl hstream (by simp [handles, hctrl, record]) (fun _ => id) _ _
      (fun _ => rfl) hframe
    · rcases hnext with rfl | rfl <;> exact fun _ => id
    · rcases hnext with rfl | rfl <;> exact fun _ => rfl
  | hangUp hctrl he =>
    apply h.quiet hknown hctrl rfl _ (by simp [handles, hctrl, record]) (fun _ => id)
      (fun _ => id) (fun _ => rfl) (fun _ => rfl) hframe
    rcases he with rfl | ⟨errno, rfl, -, -⟩
    · simp only [receives, hctrl, record_nil]
    · rfl
  | parse hctrl hp =>
    have hhandles : s.server.handles parse .run = none := by simp [handles, hctrl]
    rw [hhandles]
    exact h.turn hctrl hp hknown rfl
  | parsed hctrl hp hnext =>
    have hhandles : s.server.handles parse .run = none := by simp [handles, hctrl]
    rw [hhandles]
    exact h.parsed hctrl hp hknown hnext rfl
  | @skip w held todo r hctrl =>
    rw [handles_request hctrl]
    apply h.handle hctrl hknown hframe
    rw [step_request hctrl] at ht
    exact (Option.some.inj ht).symm
  | @respond w held todo r _ _ _ hctrl hpool =>
    rw [handles_request hctrl]
    apply h.handle hctrl hknown hframe
    rw [step_request hctrl] at ht
    exact (Option.some.inj ht).symm
  | destroy hctrl =>
    apply h.quiet hknown hctrl rfl rfl (by simp [handles, hctrl, record]) (fun _ => id)
      (fun _ => id) _ (fun _ => rfl) hframe
    exact fun _ => (ite_self _).symm
  | queued hctrl ho hk =>
    apply h.quiet hknown hctrl rfl rfl rfl (fun _ => id) (fun _ => id) (fun _ => rfl)
    · exact fun _ => part_setObj rfl
    · exact hframe
  | flushed hctrl hnext ho =>
    apply h.quiet hknown hctrl hctrl rfl rfl (fun _ => id) (fun _ => id) (fun _ => rfl)
    · exact fun _ => part_setObj rfl
    · exact hframe

theorem isolated_of_reachable
    (h : Reachable (step parse) (fun s e => s.server.Apart parse e) start s) : s.Isolated parse := by
  apply h.invariant (Isolated parse) isolated_start
  intro s e t hs hc hstep
  exact isolated_step hs hc hstep

theorem Isolated.handled_begins (h : s.Isolated parse) {c : ConnId} {u : State Part UInt8}
    {fs : List Frame} (hr : frameReader.Reads fresh (s.stream c) u fs) :
    s.handled c <+: fs.map (Frame.answer parse) := by
  by_cases hparses : s.server.ctrl.Parses c
  · cases hctrl : s.server.ctrl with
    | parse w loop length reqs =>
      rw [hctrl] at hparses
      cases hparses
      obtain ⟨-, v, rest, fs₁, fs₂, o, -, -, rfl, hhandled⟩ :=
        h.midway w loop length reqs hctrl u fs hr
      rw [hhandled, List.map_append]
      exact List.prefix_append _ _
    | _ =>
      rw [hctrl] at hparses
      cases hparses
  · rw [← (h.keeps c u fs hr hparses).answers]
    exact List.prefix_append _ _

/-- However the server's connections are served in turn, and whatever comes in on the others: as long
as nothing is written to a buffer that is in use, `do_request` deals with the frames of a
connection's own stream, and answers them as their own bytes ask. -/
theorem isolated (parse : List UInt8 → RpcHeader) (s : Traced)
    (h : Reachable (step parse) (fun s e => s.server.Apart parse e) start s) (c : ConnId)
    (hn : ActedNonneg (s.stream c)) :
    ∃ t fs, frameReader.Reads fresh (s.stream c) t fs ∧
      s.handled c <+: fs.map (Frame.answer parse) ∧
      ((∀ fd, s.server.ctrl.serving ≠ some (fd, c)) → s.handled c = fs.map (Frame.answer parse)) := by
  have hiso := isolated_of_reachable h
  obtain ⟨t, fs, hr⟩ := hn.reads
  refine ⟨t, fs, hr, hiso.handled_begins hr, ?_⟩
  intro hidle
  -- a connection that is not served is not being parsed, and none of its requests waits
  have hparses : ¬ s.server.ctrl.Parses c := by
    intro hparses
    cases hctrl : s.server.ctrl <;> rw [hctrl] at hparses hidle <;> cases hparses
    exact hidle _ rfl
  have hwaits : s.server.ctrl.waits c = [] := by
    cases hctrl : s.server.ctrl <;> rw [hctrl] at hidle <;> try rfl
    · exact if_neg fun heq => hidle _ (by rw [← heq]; rfl)
    · exact if_neg fun heq => hidle _ (by rw [← heq]; rfl)
  have hanswers := (hiso.keeps c t fs hr hparses).answers
  rwa [hwaits, List.map_nil, List.append_nil] at hanswers

/-- The message of `client.cpp` comes in two chunks on descriptor 7, and between them a request
without a header on descriptor 8. -/
def interleavedEvents : List Event :=
  [.accept 7, .accept 8, .epollin 7, .run, .received (clientMessage.encode.take 21)] ++
    List.replicate 7 .run ++ [.recvFailed EAGAIN, .epollin 8, .run,
      .received (MAGIC ++ [0, 0, 0, 0, 1, 0, 0, 0, 0x2a])] ++
    List.replicate 9 .run ++ [.recvFailed EAGAIN, .epollin 7, .run,
      .received (clientMessage.encode.drop 21)] ++
    List.replicate 4 .run ++ [.sent ⟨28, 0⟩, .run, .run, .recvFailed EAGAIN]

theorem isolated_interleaved : ∃ s,
    runIf (step clientParse) (fun s e => s.server.Apart clientParse e) start interleavedEvents = some s ∧
    s.stream 0 = clientMessage.encode ∧ (s.handled 0).map Prod.fst = [clientMessage] ∧
    ∃ t fs, frameReader.Reads fresh (s.stream 0) t fs ∧
      s.handled 0 = fs.map (Frame.answer clientParse) := by
  have hrun : (runIf (step clientParse) (fun s e => s.server.Apart clientParse e) start
      interleavedEvents).map (fun s => (s.stream 0, (s.handled 0).map Prod.fst, s.server.ctrl)) =
      some (clientMessage.encode, [clientMessage], .idle) := by decide +kernel
  obtain ⟨s, hs, hrest⟩ := Option.map_eq_some_iff.mp hrun
  simp only [Prod.mk.injEq] at hrest
  obtain ⟨hstream, hhandled, hctrl⟩ := hrest
  have hn : ActedNonneg (s.stream 0) := by
    rw [hstream]
    exact (lengthsNonneg_of_check (by decide : frameReader.check _ 12 fresh _ = true)).loaded.acted
  obtain ⟨t, fs, hr, -, hall⟩ := isolated clientParse s (.of_runIf .init hs) 0 hn
  refine ⟨s, hs, hstream, hhandled, t, fs, hr, hall ?_⟩
  rw [hctrl]
  exact fun _ h => by cases h

end Traced

end MgRaffle.MgServer
