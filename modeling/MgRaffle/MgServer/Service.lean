import MgRaffle.MgServer.Disclosure
import MgRaffle.MgServer.ReadBuf

namespace MgRaffle.MgServer
open Collector Stepping

/-- The responses, one after the other. -/
def issued (answers : List Answer) : List UInt8 := answers.flatMap fun a => a.2.getD []

/-- The queue is read from the front, and only its front may be partly sent. -/
structure MReadBuf.Fronted (r : MReadBuf) : Prop where
  atFront : r.curIt = 0
  cursor : 0 ≤ r.curPos
  single : r.curPos = 0 ∨ r.bufList.length ≤ 1
  guards : ∀ g ∈ r.bufList, 0 ≤ g.index ∧ r.curPos < g.size

namespace Server

/-- What a socket accepts in a step, and which connection's it is. -/
def accepts (s : Server) (e : Event) : Option (ConnId × List UInt8) :=
  match e, s.offers with
  | .sent o, some (c, data) => some (c, slice (s.store data.buf) data.index o.ret)
  | _, _ => none

/-- There is a buffer for a response; none overtakes the queue, none is queued behind a cursor that
has moved, and none is sent in part with another one behind it. -/
def InOrder (parse : List UInt8 → RpcHeader) (s : Server) (e : Event) : Prop :=
  match e, s.ctrl with
  | .run, .doRequest _ _ (r :: _) => MgServer.doRequest parse s.store r ≠ none → s.pool ≠ []
  | .sent o, .doResponse w _ _ _ remain => ∀ k ∈ directSend o,
      (0 < k → (s.obj w.conn).sendBuf.bufList = []) ∧
        (k < remain → (s.obj w.conn).sendBuf.curPos = 0)
  | .sent o, .sendBuf _ c => ∀ p ∈ (s.obj c).sendBuf.next, 0 < o.ret → o.ret < p.1.size →
      (s.obj c).sendBuf.bufList.length ≤ 1
  | _, _ => True

instance (parse : List UInt8 → RpcHeader) (s : Server) (e : Event) :
    Decidable (s.InOrder parse e) := by
  unfold InOrder
  split <;> infer_instance

/-- The connection has not been closed. -/
def Alive (s : Server) (c : ConnId) : Prop := s.objs.length ≤ c ∨ ∃ fd, s.conns fd = some c

/-- What `do_response` has in hand for a connection. -/
def inHand (s : Server) (c : ConnId) : List UInt8 :=
  match s.ctrl with
  | .doResponse w _ _ out remain =>
    if w.conn = c then slice (s.store out) (s.heap out).curIndex remain else []
  | _ => []

end Server

/-- The traced server, with what the sockets have accepted. -/
structure Served where
  traced : Traced
  accepted : ConnId → List UInt8

namespace Served

def start : Served := ⟨.start, fun _ => []⟩

def step (parse : List UInt8 → RpcHeader) (s : Served) (e : Event) : Option Served :=
  (s.traced.step parse e).map fun t => ⟨t, record s.accepted (s.traced.server.accepts e)⟩

/-- What is written goes where no guard refers to, and what is sent keeps its order. -/
def Careful (parse : List UInt8 → RpcHeader) (s : Served) (e : Event) : Prop :=
  s.traced.server.Apart parse e ∧ s.traced.server.InOrder parse e

instance (parse : List UInt8 → RpcHeader) (s : Served) (e : Event) :
    Decidable (s.Careful parse e) := by
  unfold Careful; infer_instance

end Served

section Queue

variable {r r₁ r₂ : MReadBuf} {g : MBufferGuard} {data : Region}

theorem exists_storage (store : BufId → List UInt8) (bufs : List BufId) :
    ∃ storage, ∀ b ∈ bufs, b < storage.length ∧ storeOf storage b = store b := by
  refine ⟨(List.range (bufs.sum + 1)).map store, ?_⟩
  intro b hb
  have hlt : b < bufs.sum + 1 := Nat.lt_succ_of_le (List.le_sum_of_mem hb)
  refine ⟨by simpa using hlt, ?_⟩
  simp [storeOf, List.getD_eq_getElem?_getD, hlt]

/-- A turn of `SendBuf` takes what the socket accepts from the front of the queue. -/
theorem MReadBuf.Fronted.turn (store : BufId → List UInt8) {o : SysResult}
    {q : Option MBufferGuard} (h : r.Fronted) (hnext : r.next = some (data, r₁))
    (ho : queuedSend r₁ data.size o = some (q, r₂))
    (hret : o.ret ≤ data.size) (hpart : 0 < o.ret → o.ret < data.size → r.bufList.length ≤ 1) :
    r₂.Fronted ∧ r.pending store = slice (store data.buf) data.index o.ret ++ r₂.pending store := by
  -- the queue alone, as the output of a connection that has sent nothing
  obtain ⟨storage, hstorage⟩ := exists_storage store (r.bufList.map fun g => g.buf)
  have hbuf (g : MBufferGuard) (hg : g ∈ r.bufList) :
      g.buf < storage.length ∧ storeOf storage g.buf = store g.buf :=
    hstorage _ (List.mem_map.mpr ⟨g, hg, rfl⟩)
  have hpending (x : MReadBuf) (hx : x.bufList ⊆ r.bufList) :
      x.pending (storeOf storage) = x.pending store :=
    pending_congr fun g hg => (hbuf g (hx hg)).2
  let s : Output := ⟨r, storage, r.pending (storeOf storage), [], false, true⟩
  have hturn : s.turn o =
      { s with sendBuf := r₂, accepted := slice (storeOf storage data.buf) data.index o.ret } := by
    simp only [Output.turn, s, hnext, ho, List.nil_append]
  have hintact : Intact s :=
    ⟨h.atFront, h.cursor, h.single, fun g hg => ⟨(hbuf g hg).1, h.guards g hg⟩, rfl⟩
  have hsize : s.requested (.turn o) = data.size := by
    show (r.next.map fun p => p.1.size).getD 0 = data.size
    rw [hnext]
    rfl
  -- the turn is one of `Output`, whose invariant says what is left
  have hdone : Intact (s.turn o) := by
    apply intact_turn hintact
    · rw [Orderly, hsize]
      exact hpart
    · rw [hsize]
      exact Or.inl hret
    · rw [hturn]
  rw [hturn] at hdone
  refine ⟨⟨hdone.atFront, hdone.cursor, hdone.single, fun g hg => (hdone.guards g hg).2⟩, ?_⟩
  have hsub : r₂.bufList ⊆ r.bufList := by
    rw [← MReadBuf.bufList_next hnext]
    exact fun g hg => (perm_queuedSend ho).subset (List.mem_append_right _ hg)
  obtain ⟨g, hg, rfl, -⟩ := MReadBuf.next_eq_some.mp hnext
  have hdel := hdone.delivered
  rw [Output.pending, hpending r₂ hsub, (hbuf g (List.mem_of_getElem? hg)).2] at hdel
  rw [← hpending r (List.Subset.refl _)]
  exact hdel.symm

theorem MReadBuf.Fronted.append (h : r.Fronted) (hpos : r.curPos = 0) (hindex : 0 ≤ g.index)
    (hsize : 0 < g.size) : (r.append g).Fronted where
  atFront := rfl
  cursor := h.cursor
  single := Or.inl hpos
  guards := by
    intro g' hg'
    rcases List.mem_append.mp hg' with hg' | hg'
    · exact h.guards g' hg'
    · rw [List.mem_singleton.mp hg']
      exact ⟨hindex, show r.curPos < g.size by rw [hpos]; exact hsize⟩

/-- What is left behind a cursor that has moved to `k`. -/
theorem slice_split {storage : List UInt8} {index size k : ℤ} (hi : 0 ≤ index) (hk : 0 ≤ k)
    (hle : k ≤ max size 0) :
    slice storage index k ++ slice storage (index + k) (size - k) = slice storage index size := by
  rcases le_or_gt k size with h | h
  · exact slice_append hi hk h
  · have hzero : k = 0 := by omega
    rw [hzero, slice_zero_size _ _ le_rfl, add_zero, sub_zero, List.nil_append]

end Queue

theorem issued_append (xs ys : List Answer) : issued (xs ++ ys) = issued xs ++ issued ys :=
  List.flatMap_append

section Alive

variable {parse : List UInt8 → RpcHeader} {s t : Server} {e : Event} {c : ConnId}

namespace Server

/-- A connection is on one descriptor, also while it is being served. -/
structure Single (s : Server) : Prop where
  mapped : ∀ fd fd' c, s.conns fd = some c → s.conns fd' = some c → fd = fd'
  served : ∀ fd fd' c, s.ctrl.serving = some (fd, c) → s.conns fd' = some c → fd = fd'

/-- No step brings a closed connection back. -/
theorem alive_of_step (hstep : s.step parse e = some t) (h : t.Alive c) : s.Alive c := by
  have hlen := length_objs_step (stepped_of_step hstep)
  rcases h with hc | ⟨fd, hfd⟩
  · exact Or.inl (hlen.trans hc)
  · cases touches_of_step hstep with
    | accepts fd' he hctrl ht =>
      rw [ht, createConn] at hfd
      split_ifs at hfd with hnew
      · rw [addConn_conns, Function.update_apply] at hfd
        split_ifs at hfd
        · cases hfd
          exact Or.inl le_rfl
        · exact Or.inr ⟨fd, hfd⟩
      · exact Or.inr ⟨fd, hfd⟩
    | absent fd' he hctrl hnone hcloses ht =>
      rw [ht] at hfd
      exact Or.inr ⟨fd, hfd⟩
    | enters fd' c' he hctrl hopen huses hcloses hconns hserving =>
      rw [hconns] at hfd
      exact Or.inr ⟨fd, hfd⟩
    | stays p hserving hcloses huses hconns hnext =>
      rw [hconns] at hfd
      exact Or.inr ⟨fd, hfd⟩
    | closes p hserving hcloses huses hconns hnext =>
      rw [hconns, Function.update_apply] at hfd
      split_ifs at hfd
      exact Or.inr ⟨fd, hfd⟩

theorem single_step (h : s.Single) (hknown : s.Known) (hstep : s.step parse e = some t) :
    t.Single := by
  -- only accepting puts a connection on a descriptor, and that is a new one
  have hmapped : ∀ fd fd' c, t.conns fd = some c → t.conns fd' = some c → fd = fd' := by
    intro fd fd' c hfd hfd'
    cases touches_of_step hstep with
    | accepts fd₀ he hctrl ht =>
      rw [ht, createConn] at hfd hfd'
      split_ifs at hfd hfd' with hnew
      · rw [addConn_conns, Function.update_apply] at hfd hfd'
        split_ifs at hfd hfd' with h₁ h₂ h₂
        · rw [h₁, h₂]
        · cases hfd
          exact absurd (hknown.mapped _ _ hfd') (lt_irrefl _)
        · cases hfd'
          exact absurd (hknown.mapped _ _ hfd) (lt_irrefl _)
        · exact h.mapped fd fd' c hfd hfd'
      · exact h.mapped fd fd' c hfd hfd'
    | absent fd₀ he hctrl hnone hcloses ht =>
      rw [ht] at hfd hfd'
      exact h.mapped fd fd' c hfd hfd'
    | enters fd₀ c' he hctrl hopen huses hcloses hconns hserving =>
      rw [hconns] at hfd hfd'
      exact h.mapped fd fd' c hfd hfd'
    | stays p hserving hcloses huses hconns hnext =>
      rw [hconns] at hfd hfd'
      exact h.mapped fd fd' c hfd hfd'
    | closes p hserving hcloses huses hconns hnext =>
      rw [hconns, Function.update_apply] at hfd hfd'
      split_ifs at hfd hfd'
      exact h.mapped fd fd' c hfd hfd'
  refine ⟨hmapped, ?_⟩
  intro fd fd' c hserving' hfd'
  cases touches_of_step hstep with
  | accepts fd₀ he hctrl ht =>
    rw [ht, createConn] at hserving'
    split_ifs at hserving'
    · rw [addConn_ctrl, hctrl] at hserving'
      cases hserving'
    · rw [hctrl] at hserving'
      cases hserving'
  | absent fd₀ he hctrl hnone hcloses ht =>
    rw [ht, hctrl] at hserving'
    cases hserving'
  | enters fd₀ c' he hctrl hopen huses hcloses hconns hserving =>
    rw [hserving] at hserving'
    cases hserving'
    rw [hconns] at hfd'
    exact h.mapped _ _ _ hopen hfd'
  | stays p hserving hcloses huses hconns hnext =>
    rw [hconns] at hfd'
    rcases hnext with ⟨hsame, -⟩ | ⟨hidle, -⟩
    · rw [hsame] at hserving'
      cases hserving'
      exact h.served _ _ _ hserving hfd'
    · rw [hidle] at hserving'
      cases hserving'
  | closes p hserving hcloses huses hconns hnext =>
    rw [hconns, Function.update_apply] at hfd'
    split_ifs at hfd'
    rcases hnext with ⟨-, hsame, -⟩ | ⟨-, hidle⟩
    · rw [hsame] at hserving'
      cases hserving'
      exact h.served _ _ _ hserving hfd'
    · rw [hidle] at hserving'
      cases hserving'

/-- The connection that is being served is closed with its descriptor. -/
theorem not_alive_of_close (h : s.Single) (hknown : s.Known) {fd : ℤ}
    (hserving : s.ctrl.serving = some (fd, c)) {ctrl : Ctrl} :
    ¬ ((s.closeConn fd).goto ctrl).Alive c := by
  rintro (hc | ⟨fd', hfd'⟩)
  · exact absurd (hknown.served fd c hserving) (Nat.not_lt.mpr hc)
  · rw [goto_conns, closeConn_conns, Function.update_apply] at hfd'
    split_ifs at hfd' with hne
    exact hne (h.served fd fd' c hserving hfd').symm

end Server

end Alive

namespace Server

/-- What has been accepted, what is queued and what is in hand are the responses. -/
structure Delivers (s : Server) (c : ConnId) (accepted : List UInt8) (handled : List Answer) :
    Prop where
  queue : (s.obj c).sendBuf.Fronted
  delivered : accepted ++ (s.obj c).sendBuf.pending s.store ++ s.inHand c = issued handled

variable {parse : List UInt8 → RpcHeader} {s t : Server} {e : Event} {c : ConnId}
  {acc : List UInt8} {hd : List Answer} {accepted : ConnId → List UInt8}
  {handled : ConnId → List Answer}

theorem Delivers.pending_eq (hstore : ∀ b ∈ s.guardBufs, t.store b = s.store b) :
    (s.obj c).sendBuf.pending t.store = (s.obj c).sendBuf.pending s.store :=
  pending_congr fun _ hg => hstore _ (Traced.queueBufs_subset s hg)

/-- A step in which the connection takes no part. -/
theorem Delivers.transfer (h : s.Delivers c acc hd)
    (hstore : ∀ b ∈ s.guardBufs, t.store b = s.store b)
    (hsend : (t.obj c).sendBuf = (s.obj c).sendBuf) (hhand : s.inHand c = [])
    (hhand' : t.inHand c = []) : t.Delivers c acc hd where
  queue := by
    rw [hsend]
    exact h.queue
  delivered := by
    rw [hsend, Delivers.pending_eq hstore, hhand', ← h.delivered, hhand]

/-- A step that neither sends nor handles a request. -/
theorem Delivers.quiet (h : s.Delivers c (accepted c) (handled c))
    (hstore : ∀ b ∈ s.guardBufs, t.store b = s.store b) (haccepts : s.accepts e = none)
    (hhandles : s.handles parse e = none) (hsend : (t.obj c).sendBuf = (s.obj c).sendBuf)
    (hhand : s.inHand c = []) (hhand' : t.inHand c = []) :
    t.Delivers c (record accepted (s.accepts e) c) (record handled (s.handles parse e) c) := by
  rw [haccepts, hhandles]
  exact h.transfer hstore hsend hhand hhand'

/-- `do_request` comes to a request. -/
theorem Delivers.request {w : Receiving} {held todo : List MRequest} {r : MRequest}
    (h : s.Delivers c (accepted c) (handled c)) (hctrl : s.ctrl = .doRequest w held (r :: todo))
    (hapart : s.Apart parse .run) (horder : s.InOrder parse .run)
    (hstore : ∀ b ∈ s.guardBufs, t.store b = s.store b) (ht : t = s.request parse w held r todo) :
    t.Delivers c (accepted c) (record handled (some (w.conn, [r.answer parse s.store])) c) := by
  have hhand : s.inHand c = [] := by simp [inHand, hctrl]
  have hsend : (t.obj c).sendBuf = (s.obj c).sendBuf := by
    rw [ht]
    unfold Server.request
    split <;> rfl
  -- a response comes into the hand of the connection that asked; the others wait
  by_cases hc : c = w.conn
  · rw [hc] at h hsend hhand ⊢
    rw [Traced.record_self]
    refine ⟨hsend ▸ h.queue, ?_⟩
    rw [hsend, Delivers.pending_eq hstore, issued_append, ← h.delivered, hhand, List.append_nil]
    congr 1
    have hissued : issued [r.answer parse s.store] = (MgServer.doRequest parse s.store r).getD [] :=
      List.append_nil _
    rw [hissued]
    unfold Server.request at ht
    split at ht
    · rename_i bytes out pool hresponse hpool
      obtain ⟨-, hcur, hfits⟩ := hapart (out, bytes) (by simp [writes, hctrl, hresponse, hpool])
      have hheap : t.heap out = (s.heap out).write bytes := by
        rw [ht, goto_heap, setBuf_heap, Function.update_self]
      have hin : t.inHand w.conn = slice (t.store out) (t.heap out).curIndex bytes.length := by
        rw [inHand, ht]
        exact if_pos rfl
      rw [hin, hresponse, Option.getD_some, store, hheap]
      exact Traced.slice_memcpy hfits
    · rename_i hfail
      -- no buffer was wanted
      have hnone : MgServer.doRequest parse s.store r = none := by
        by_contra hsome
        have hpool : s.pool ≠ [] := by
          have horder' := horder
          simp only [InOrder, hctrl] at horder'
          exact horder' hsome
        obtain ⟨bytes, hbytes⟩ := Option.ne_none_iff_exists'.mp hsome
        obtain ⟨out, pool, hpool⟩ := List.exists_cons_of_ne_nil hpool
        exact hfail bytes out pool hbytes hpool
      rw [hnone, ht]
      rfl
  · rw [Traced.record_of_ne _ _ hc]
    apply h.transfer hstore hsend hhand
    rw [ht]
    unfold Server.request
    split
    · exact if_neg (Ne.symm hc)
    · rfl

theorem ret_le_remain {w : Receiving} {held todo : List MRequest} {out : BufId} {remain : ℤ}
    {o : SysResult} (hctrl : s.ctrl = .doResponse w held todo out remain)
    (ht : s.step parse (.sent o) = some t) : o.ret ≤ remain := by
  simp only [step, hctrl] at ht
  split_ifs at ht with hcond
  exact hcond.1

theorem ret_le_size {fd : ℤ} {data : Region} {r : MReadBuf} {o : SysResult}
    (h : (s.obj c).sendBuf.Fronted) (hctrl : s.ctrl = .sendBuf fd c)
    (hnext : (s.obj c).sendBuf.next = some (data, r)) (ht : s.step parse (.sent o) = some t) :
    o.ret ≤ data.size := by
  obtain ⟨g, hg, rfl, -⟩ := MReadBuf.next_eq_some.mp hnext
  have hsize := (h.guards g (List.mem_of_getElem? hg)).2
  simp only [step, hctrl, hnext] at ht
  split_ifs at ht with hcond
  rcases hcond with hneg | hret
  · omega
  · exact hret

/-- `do_response` sends a part of the response, and queues or drops the rest. -/
theorem Delivers.respond {w : Receiving} {held todo : List MRequest} {out : BufId} {remain k : ℤ}
    {o : SysResult} (h : s.Delivers w.conn acc hd)
    (hctrl : s.ctrl = .doResponse w held todo out remain) (ho : directSend o = some k)
    (horder : s.InOrder parse (.sent o)) (hret : o.ret ≤ remain)
    (hindex : 0 ≤ (s.heap out).curIndex) {r : MReadBuf}
    (hr : 0 < remain - k ∧ r = (s.obj w.conn).sendBuf.append
        (.new out ((s.heap out).consume k) (remain - k)) ∨
      remain - k ≤ 0 ∧ r = (s.obj w.conn).sendBuf) :
    r.Fronted ∧ acc ++ slice (s.store out) (s.heap out).curIndex o.ret ++ r.pending s.store =
      issued hd := by
  obtain ⟨hk, hkret⟩ := directSend_nonneg ho
  obtain ⟨hover, hbehind⟩ : (0 < k → (s.obj w.conn).sendBuf.bufList = []) ∧
      (k < remain → (s.obj w.conn).sendBuf.curPos = 0) := by
    have horder' := horder
    simp only [InOrder, hctrl] at horder'
    exact horder' k ho
  -- a failed `send` returns -1, and takes no byte
  have hsame : slice (s.store out) (s.heap out).curIndex o.ret =
      slice (s.store out) (s.heap out).curIndex k := by
    have htoNat : o.ret.toNat = k.toNat := by
      unfold directSend at ho
      split_ifs at ho <;> cases ho <;> omega
    rw [slice, slice, htoNat]
  have hin : s.inHand w.conn = slice (s.store out) (s.heap out).curIndex remain := by
    simp [inHand, hctrl]
  -- what is sent at once finds nothing in front of it
  have hfront :
      slice (s.store out) (s.heap out).curIndex k ++ (s.obj w.conn).sendBuf.pending s.store =
        (s.obj w.conn).sendBuf.pending s.store ++ slice (s.store out) (s.heap out).curIndex k := by
    rcases hk.eq_or_lt with hzero | hpos
    · rw [← hzero, slice_zero_size _ _ le_rfl, List.nil_append, List.append_nil]
    · rw [MReadBuf.pending_nil _ (hover hpos), List.nil_append, List.append_nil]
  have hdel : acc ++ slice (s.store out) (s.heap out).curIndex k ++
      (s.obj w.conn).sendBuf.pending s.store ++
        slice (s.store out) ((s.heap out).curIndex + k) (remain - k) = issued hd := by
    rw [← h.delivered, hin, ← slice_split hindex hk (by omega : k ≤ max remain 0),
      List.append_assoc acc, hfront]
    simp only [List.append_assoc]
  rw [hsame]
  rcases hr with ⟨hpos, rfl⟩ | ⟨hnone, rfl⟩
  · have hzero := hbehind (by omega)
    refine ⟨h.queue.append hzero (show 0 ≤ (s.heap out).curIndex + k by omega) hpos, ?_⟩
    rw [MReadBuf.pending_append _ h.queue.atFront, ← hdel, hzero, add_zero, sub_zero,
      List.append_assoc _ _ (slice _ _ _)]
    rfl
  · rw [slice_zero_size _ _ hnone, List.append_nil] at hdel
    exact ⟨h.queue, hdel⟩

/-- The socket has taken `bytes`, and `r` is what is left of the queue. -/
theorem Delivers.of_sent {bytes : List UInt8} {r : MReadBuf} (hsend : (t.obj c).sendBuf = r)
    (hstore : t.store = s.store) (hqueue : r.Fronted)
    (hdel : acc ++ bytes ++ r.pending s.store = issued hd) (hhand : t.inHand c = []) :
    t.Delivers c (acc ++ bytes) hd where
  queue := hsend ▸ hqueue
  delivered := by rw [hsend, hstore, hhand, List.append_nil, hdel]

end Server

namespace Served
open Server

variable {parse : List UInt8 → RpcHeader} {s : Served} {e : Event} {c : ConnId}

/-- The invariant of careful runs. -/
structure Serving (parse : List UInt8 → RpcHeader) (s : Served) : Prop where
  isolated : s.traced.Isolated parse
  undisclosed : s.traced.Undisclosed
  single : s.traced.server.Single
  delivers : ∀ c, s.traced.server.Alive c →
    s.traced.server.Delivers c (s.accepted c) (s.traced.handled c)

theorem serving_start : start.Serving parse where
  isolated := Traced.isolated_start
  undisclosed := Traced.undisclosed_start
  single := ⟨fun _ _ _ h => (by cases h), fun _ _ _ h => (by cases h)⟩
  delivers := fun c _ =>
    ⟨⟨rfl, le_rfl, Or.inl rfl, fun _ hg => absurd hg List.not_mem_nil⟩, rfl⟩

theorem serving_step {s' : Served} (h : s.Serving parse) (hc : s.Careful parse e)
    (hstep : s.step parse e = some s') : s'.Serving parse := by
  obtain ⟨tr, htr, rfl⟩ := Option.map_eq_some_iff.mp hstep
  obtain ⟨hapart, horder⟩ := hc
  refine ⟨Traced.isolated_step h.isolated hapart htr,
    Traced.undisclosed_step h.undisclosed hapart htr, ?_, ?_⟩
  · obtain ⟨t, ht, rfl⟩ := Option.map_eq_some_iff.mp htr
    exact single_step h.single h.isolated.known ht
  obtain ⟨t, ht, rfl⟩ := Option.map_eq_some_iff.mp htr
  intro c halive
  have hold := h.delivers c (alive_of_step ht halive)
  have hframe : ∀ b ∈ s.traced.server.guardBufs, t.store b = s.traced.server.store b :=
    fun b hb => Traced.store_step hapart ht hb
  show t.Delivers c (record s.accepted (s.traced.server.accepts e) c)
    (record s.traced.handled (s.traced.server.handles parse e) c)
  -- what is sent or handled changes the balance of one connection; a close ends it
  cases stepped_of_step ht with
  | accept hctrl hfd =>
    exact hold.quiet hframe rfl rfl (Traced.part_addConn rfl) (by simp [inHand, hctrl])
      (by simp [inHand, hctrl])
  | ignored hctrl =>
    exact hold.quiet hframe (by simp [accepts, offers, hctrl]) (by simp [handles, hctrl]) rfl
      (by simp [inHand, hctrl]) (by simp [inHand, hctrl])
  | retry hctrl hnext =>
    apply hold.quiet hframe (by simp [accepts, offers, hctrl]) (by simp [handles, hctrl]) rfl
      (by simp [inHand, hctrl])
    rcases hnext with rfl | rfl <;> rfl
  | hangUp hctrl he =>
    exact hold.quiet hframe (by simp [accepts, offers, hctrl]) (by simp [handles, hctrl]) rfl
      (by simp [inHand, hctrl]) rfl
  | parse hctrl hp =>
    exact hold.quiet hframe rfl (by simp [handles, hctrl])
      (Traced.part_setObj (ParseState.step_frame hp).2.1) (by simp [inHand, hctrl]) rfl
  | parsed hctrl hp hnext =>
    apply hold.quiet hframe rfl (by simp [handles, hctrl]) rfl (by simp [inHand, hctrl])
    rcases hnext with ⟨-, rfl⟩ | rfl <;> rfl
  | @skip w held todo r hctrl =>
    rw [handles_request hctrl]
    rw [Traced.step_request hctrl] at ht
    exact hold.request hctrl hapart horder hframe (Option.some.inj ht).symm
  | @respond w held todo r _ _ _ hctrl hpool =>
    rw [handles_request hctrl]
    rw [Traced.step_request hctrl] at ht
    exact hold.request hctrl hapart horder hframe (Option.some.inj ht).symm
  | @refused w held todo out remain o hctrl ho =>
    have hne : c ≠ w.conn := by
      rintro rfl
      exact not_alive_of_close h.single h.isolated.known (by rw [hctrl]; rfl) halive
    have haccepts : s.traced.server.accepts (.sent o) = some (w.conn,
        slice (s.traced.server.store out) (s.traced.server.heap out).curIndex o.ret) := by
      simp [accepts, offers, hctrl]
    rw [haccepts, Traced.record_of_ne _ _ hne]
    exact hold.transfer hframe rfl (by simp [inHand, hctrl, hne.symm]) rfl
  | @queued w held todo out remain k o hctrl ho hk =>
    have haccepts : s.traced.server.accepts (.sent o) = some (w.conn,
        slice (s.traced.server.store out) (s.traced.server.heap out).curIndex o.ret) := by
      simp [accepts, offers, hctrl]
    rw [haccepts]
    by_cases hne : c = w.conn
    · cases hne
      have hserved := h.isolated.known.served w.fd w.conn (by rw [hctrl]; rfl)
      obtain ⟨hqueue, hdel⟩ := hold.respond hctrl ho horder (ret_le_remain hctrl ht)
        (h.undisclosed.responding w held todo out remain hctrl).index (Or.inl ⟨hk, rfl⟩)
      rw [Traced.record_self]
      refine Delivers.of_sent ?_ ?_ hqueue hdel rfl
      · exact congrArg MConnection.sendBuf (obj_setObj_self _ w.conn _ hserved)
      · exact Traced.store_setBuf_consume
    · rw [Traced.record_of_ne _ _ hne]
      apply hold.transfer hframe _ (by simp [inHand, hctrl, Ne.symm hne]) rfl
      exact congrArg MConnection.sendBuf (obj_setObj_of_ne _ w.conn _ hne)
  | @answered w held todo out remain k o hctrl ho hk =>
    have haccepts : s.traced.server.accepts (.sent o) = some (w.conn,
        slice (s.traced.server.store out) (s.traced.server.heap out).curIndex o.ret) := by
      simp [accepts, offers, hctrl]
    rw [haccepts]
    by_cases hne : c = w.conn
    · cases hne
      obtain ⟨hqueue, hdel⟩ := hold.respond hctrl ho horder (ret_le_remain hctrl ht)
        (h.undisclosed.responding w held todo out remain hctrl).index
        (Or.inr ⟨Int.not_lt.mp hk, rfl⟩)
      rw [Traced.record_self]
      exact Delivers.of_sent rfl Traced.store_setBuf_consume hqueue hdel rfl
    · rw [Traced.record_of_ne _ _ hne]
      exact hold.transfer hframe rfl (by simp [inHand, hctrl, Ne.symm hne]) rfl
  | drained hctrl =>
    exact hold.quiet hframe rfl (by simp [handles, hctrl]) rfl (by simp [inHand, hctrl]) rfl
  | @broken fd d data r o hctrl hnext ho =>
    have hne : c ≠ d := by
      rintro rfl
      exact not_alive_of_close h.single h.isolated.known (by rw [hctrl]; rfl) halive
    have haccepts : s.traced.server.accepts (.sent o) =
        some (d, slice (s.traced.server.store data.buf) data.index o.ret) := by
      simp [accepts, offers, hctrl, hnext]
    rw [haccepts, Traced.record_of_ne _ _ hne]
    exact hold.transfer hframe rfl (by simp [inHand, hctrl]) rfl
  | @flushed fd d data r r' g o hctrl hnext ho =>
    have haccepts : s.traced.server.accepts (.sent o) =
        some (d, slice (s.traced.server.store data.buf) data.index o.ret) := by
      simp [accepts, offers, hctrl, hnext]
    have hhand : s.traced.server.inHand c = [] := by simp [inHand, hctrl]
    have hhand' : ((s.traced.server.setObj d { s.traced.server.obj d with sendBuf := r' }).giveBack
        (g.toList.map fun g => g.buf)).inHand c = [] := by simp [inHand, hctrl]
    rw [haccepts]
    by_cases hne : c = d
    · cases hne
      have hserved := h.isolated.known.served fd c (by rw [hctrl]; rfl)
      have hret := ret_le_size hold.queue hctrl hnext ht
      obtain ⟨hqueue, hpending⟩ := hold.queue.turn s.traced.server.store hnext ho hret
        (by
          simp only [InOrder, hctrl] at horder
          exact horder _ hnext)
      have hdel := hold.delivered
      rw [hhand, List.append_nil, hpending, ← List.append_assoc] at hdel
      rw [Traced.record_self]
      refine Delivers.of_sent ?_ rfl hqueue hdel hhand'
      exact congrArg MConnection.sendBuf (obj_setObj_self _ c _ hserved)
    · rw [Traced.record_of_ne _ _ hne]
      apply hold.transfer hframe _ hhand hhand'
      exact congrArg MConnection.sendBuf (obj_setObj_of_ne _ d _ hne)
  | _ hctrl =>
    exact hold.quiet hframe rfl (by simp [handles, hctrl]) rfl (by simp [inHand, hctrl]) rfl

theorem serving_of_reachable (h : Reachable (step parse) (Careful parse) start s) :
    s.Serving parse := by
  apply h.invariant (Serving parse) serving_start
  intro s e t hs hc hstep
  exact serving_step hs hc hstep

/-- The server as a function of what comes in: as long as a connection is open, its socket has
accepted the first bytes of the responses to the frames of its own stream, in their order; and back
in `epoll_wait`, what is queued for it is the rest of them. -/
theorem serves_in_order (parse : List UInt8 → RpcHeader) (s : Served)
    (h : Reachable (step parse) (Careful parse) start s) (fd : ℤ) (c : ConnId)
    (hopen : s.traced.server.conns fd = some c) (hn : ActedNonneg (s.traced.stream c)) :
    ∃ t fs, frameReader.Reads fresh (s.traced.stream c) t fs ∧
      s.accepted c <+: issued (fs.map (Frame.answer parse)) ∧
      (s.traced.server.ctrl = .idle →
        s.accepted c ++ (s.traced.server.obj c).sendBuf.pending s.traced.server.store =
          issued (fs.map (Frame.answer parse))) := by
  have hserving := serving_of_reachable h
  have hdel := (hserving.delivers c (Or.inr ⟨fd, hopen⟩)).delivered
  obtain ⟨t, fs, hr⟩ := hn.reads
  refine ⟨t, fs, hr, ?_, ?_⟩
  · obtain ⟨rest, hrest⟩ := hserving.isolated.handled_begins hr
    rw [← hrest, issued_append, ← hdel, List.append_assoc, List.append_assoc]
    exact List.prefix_append _ _
  · intro hidle
    have hanswers := (hserving.isolated.keeps c t fs hr (by rw [hidle]; exact id)).answers
    have hhand : s.traced.server.inHand c = [] := by simp [inHand, hidle]
    rw [hidle] at hanswers
    rw [← hanswers, issued_append, ← hdel, hhand, List.append_nil]
    exact (List.append_nil _).symm

/-- The rest of the response goes out when the socket is reported writable. -/
def flushedEvents : List Event := Traced.queuedEvents ++ [.sent ⟨18, 0⟩, .run]

theorem serves_in_order_flushed : ∃ s,
    runIf (step clientParse) (Careful clientParse) start flushedEvents = some s ∧
    (s.accepted 0).length = 28 ∧
    ∃ t fs, frameReader.Reads fresh (s.traced.stream 0) t fs ∧
      s.accepted 0 = issued (fs.map (Frame.answer clientParse)) := by
  have hrun : (runIf (step clientParse) (Careful clientParse) start flushedEvents).map (fun s =>
      (s.traced.stream 0, s.traced.server.ctrl, s.traced.server.conns 7, (s.accepted 0).length,
        (s.traced.server.obj 0).sendBuf.bufList)) =
      some (clientMessage.encode, .idle, some 0, 28, []) := by decide +kernel
  obtain ⟨s, hs, hrest⟩ := Option.map_eq_some_iff.mp hrun
  simp only [Prod.mk.injEq] at hrest
  obtain ⟨hstream, hctrl, hopen, hlength, hqueue⟩ := hrest
  have hn : ActedNonneg (s.traced.stream 0) := by
    rw [hstream]
    exact (lengthsNonneg_of_check (by decide : frameReader.check _ 12 fresh _ = true)).loaded.acted
  obtain ⟨t, fs, hr, -, hall⟩ := serves_in_order clientParse s (.of_runIf .init hs) 7 0 hopen hn
  refine ⟨s, hs, hlength, t, fs, hr, ?_⟩
  have hdone := hall hctrl
  rwa [MReadBuf.pending_nil _ hqueue, List.append_nil] at hdone

end Served

end MgRaffle.MgServer
