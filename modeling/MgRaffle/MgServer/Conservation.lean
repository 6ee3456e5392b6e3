import MgRaffle.MgServer.Footprint

namespace MgRaffle.MgServer
open Stepping

namespace Ctrl

/-- The connection that the thread is busy with. -/
def serving : Ctrl → Option (ℤ × ConnId)
  | .idle => none
  | .recvRun fd c => some (fd, c)
  | .recv w => some (w.fd, w.conn)
  | .parse w _ _ _ => some (w.fd, w.conn)
  | .doRequest w _ _ => some (w.fd, w.conn)
  | .doResponse w _ _ _ _ => some (w.fd, w.conn)
  | .sendBuf fd c => some (fd, c)

/-- The buffers that the thread has yet to see to. -/
@[simp] def owed (ctrl : Ctrl) : List BufId := ctrl.guardBufs ++ (ctrl.allocated ++ ctrl.parsing)

end Ctrl

namespace Server

/-- A guard of a connection in the map is on the buffer: of its incomplete request, or of its
send queue. -/
def Attached (s : Server) (b : BufId) : Prop :=
  ∃ fd c, s.conns fd = some c ∧ b ∈ (s.obj c).guardBufs

/-- No buffer is lost. -/
structure Complete (s : Server) : Prop where
  held : ∀ b < BUFFER_POOL_SIZE, b ∈ s.pool ∨ s.Attached b
  back : (∀ fd, s.conns fd = none) → ∀ b < BUFFER_POOL_SIZE, b ∈ s.pool

/-- The connection that `CloseConn` is called for. -/
def closes (s : Server) (e : Event) : Option ConnId :=
  match e, s.ctrl with
  | .run, .recvRun _ c => if s.pool = [] then some c else none
  | .received bytes, .recv w => if bytes = [] then some w.conn else none
  | .recvFailed errno, .recv w =>
    if errno = EAGAIN ||| EWOULDBLOCK ∨ errno = EINTR then none else some w.conn
  | .sent o, .doResponse w _ _ _ _ => if directSend o = none then some w.conn else none
  | .sent o, .sendBuf _ c =>
    match (s.obj c).sendBuf.next with
    | some (data, r) => if queuedSend r data.size o = none then some c else none
    | none => none
  | _, _ => none

/-- `do_response` closes the connection. -/
def refuses (s : Server) (e : Event) : Bool :=
  match e, s.ctrl with
  | .sent o, .doResponse _ _ _ _ _ => directSend o = none
  | _, _ => false

/-- `parse_connection` returns without having built a guard on the chunk. -/
def overlooks (s : Server) (e : Event) : Bool :=
  match e, s.ctrl with
  | .run, .parse w loop length reqs =>
    (s.parsing w loop length reqs).step = none ∧ w.buf ∉ (s.parsing w loop length reqs).guardBufs
  | _, _ => false

/-- No response is refused, every chunk reaches a header or a body, and only connections without
guards are closed. -/
def Lossless (s : Server) (e : Event) : Prop :=
  s.refuses e = false ∧ s.overlooks e = false ∧ ∀ c ∈ s.closes e, (s.obj c).guardBufs = []

instance (s : Server) (e : Event) : Decidable (s.Lossless e) :=
  inferInstanceAs (Decidable (_ ∧ _ ∧ ∀ c ∈ s.closes e, (s.obj c).guardBufs = []))

/-- Where the buffers are while the thread is at work. -/
structure Conserved (s : Server) : Prop where
  valid : ∀ fd c, s.conns fd = some c → c < s.objs.length
  serving : ∀ p ∈ s.ctrl.serving, s.conns p.1 = some p.2
  accounted : ∀ b < BUFFER_POOL_SIZE, b ∈ s.pool ∨ s.Attached b ∨ b ∈ s.ctrl.owed

section Conservation

variable {parse : List UInt8 → RpcHeader} {s t : Server} {e : Event} {b : BufId}

theorem conserved_new : Conserved .new where
  valid := by
    intro fd c h
    cases h
  serving := by
    intro p h
    cases h
  accounted := by
    intro b hb
    left
    simpa only [new, List.mem_range] using hb

theorem Conserved.idle (h : s.Conserved) (hctrl : s.ctrl = .idle) {b : BufId}
    (hb : b < BUFFER_POOL_SIZE) : b ∈ s.pool ∨ s.Attached b := by
  have hacc := h.accounted b hb
  rw [hctrl] at hacc
  simpa using hacc

/-- The thread begins to serve a connection. -/
theorem Conserved.serve (h : s.Conserved) {fd : ℤ} {c : ConnId} {ctrl : Ctrl}
    (hctrl : s.ctrl = .idle) (hopen : s.conns fd = some c)
    (hserving : ctrl.serving = some (fd, c)) : (s.goto ctrl).Conserved where
  valid := h.valid
  serving := by
    intro p hp
    rw [goto_ctrl, hserving] at hp
    cases hp
    exact hopen
  accounted := by
    intro b hb
    rcases h.idle hctrl hb with hpool | hatt
    · exact Or.inl hpool
    · exact Or.inr (Or.inl hatt)

/-- The thread goes on with the same connection or is done with it, and gives buffers back. -/
theorem Conserved.giveBack (h : s.Conserved) {bs : List BufId} {ctrl : Ctrl}
    (hserving : ctrl.serving = none ∨ ctrl.serving = s.ctrl.serving)
    (hkept : ∀ b ∈ s.ctrl.owed, b ∈ bs ∨ s.Attached b ∨ b ∈ ctrl.owed) :
    ((s.giveBack bs).goto ctrl).Conserved where
  valid := h.valid
  serving := by
    intro p hp
    rw [goto_ctrl] at hp
    rcases hserving with hnone | hsame
    · rw [hnone] at hp
      cases hp
    · rw [hsame] at hp
      exact h.serving p hp
  accounted := by
    intro b hb
    rcases h.accounted b hb with hpool | hatt | hctrl
    · exact Or.inl (List.mem_append_left _ hpool)
    · exact Or.inr (Or.inl hatt)
    · rcases hkept b hctrl with hback | hrest
      · exact Or.inl (List.mem_append_right _ hback)
      · exact Or.inr hrest

theorem Conserved.goto (h : s.Conserved) {ctrl : Ctrl}
    (hserving : ctrl.serving = none ∨ ctrl.serving = s.ctrl.serving)
    (hkept : ∀ b ∈ s.ctrl.owed, s.Attached b ∨ b ∈ ctrl.owed) : (s.goto ctrl).Conserved := by
  have hmove : ((s.giveBack []).goto ctrl).Conserved :=
    h.giveBack hserving (fun b hb => Or.inr (hkept b hb))
  rwa [giveBack_nil] at hmove

theorem Conserved.setBuf (h : s.Conserved) (b : BufId) (buf : MBuffer) : (s.setBuf b buf).Conserved :=
  ⟨h.valid, h.serving, h.accounted⟩

/-- A connection without guards is closed. -/
theorem Attached.closeConn (h : s.Attached b) {fd : ℤ} {c : ConnId} (hopen : s.conns fd = some c)
    (hnil : (s.obj c).guardBufs = []) : (s.closeConn fd).Attached b := by
  obtain ⟨fd', c', hconn, hb⟩ := h
  by_cases hfd : fd' = fd
  · subst hfd
    obtain rfl : c = c' := by rwa [hopen, Option.some.injEq] at hconn
    rw [hnil] at hb
    cases hb
  · refine ⟨fd', c', ?_, hb⟩
    rw [closeConn_conns, Function.update_of_ne hfd]
    exact hconn

theorem Conserved.closeConn (h : s.Conserved) {fd : ℤ} {c : ConnId}
    (hopen : s.conns fd = some c) (hnil : (s.obj c).guardBufs = []) (hctrl : s.ctrl = .idle) :
    (s.closeConn fd).Conserved where
  valid := by
    intro fd' c' hconn
    rw [closeConn_conns] at hconn
    by_cases hfd : fd' = fd
    · rw [hfd, Function.update_self] at hconn
      cases hconn
    · rw [Function.update_of_ne hfd] at hconn
      exact h.valid fd' c' hconn
  serving := by
    intro p hp
    rw [closeConn_ctrl, hctrl] at hp
    cases hp
  accounted := by
    intro b hb
    rcases h.idle hctrl hb with hpool | hatt
    · exact Or.inl hpool
    · exact Or.inr (Or.inl (hatt.closeConn hopen hnil))

theorem Conserved.addConn (h : s.Conserved) {fd : ℤ} (hctrl : s.ctrl = .idle)
    (hfd : s.conns fd = none) : (s.addConn fd).Conserved where
  valid := by
    intro fd' c hconn
    rw [addConn_objs, List.length_append, List.length_singleton]
    rw [addConn_conns] at hconn
    by_cases hne : fd' = fd
    · rw [hne, Function.update_self] at hconn
      cases hconn
      exact Nat.lt_succ_self _
    · rw [Function.update_of_ne hne] at hconn
      exact Nat.lt_succ_of_lt (h.valid fd' c hconn)
  serving := by
    intro p hp
    rw [addConn_ctrl, hctrl] at hp
    cases hp
  accounted := by
    intro b hb
    rcases h.idle hctrl hb with hpool | ⟨fd', c, hconn, hguard⟩
    · exact Or.inl hpool
    · -- the new connection takes a place in the map that was free
      have hne : fd' ≠ fd := by
        rintro rfl
        rw [hfd] at hconn
        cases hconn
      refine Or.inr (Or.inl ⟨fd', c, ?_, ?_⟩)
      · rw [addConn_conns, Function.update_of_ne hne]
        exact hconn
      · rw [obj, addConn_objs, List.getD_append _ _ _ _ (h.valid fd' c hconn)]
        exact hguard

/-- `Allocate` puts the buffer at the front of the pool into the hands of the thread. -/
theorem Conserved.allocate (h : s.Conserved) {b : BufId} {pool : List BufId} {ctrl : Ctrl}
    (hpool : s.pool = b :: pool) (hserving : ctrl.serving = s.ctrl.serving)
    (hkept : ∀ x, x ∈ s.ctrl.owed ∨ x = b → x ∈ ctrl.owed) :
    ({ s with pool := pool, ctrl := ctrl } : Server).Conserved where
  valid := h.valid
  serving := by
    intro p hp
    simp only [hserving] at hp
    exact h.serving p hp
  accounted := by
    intro x hx
    rcases h.accounted x hx with hx | hatt | hctrl
    · rw [hpool] at hx
      rcases List.mem_cons.mp hx with rfl | hx
      · exact Or.inr (Or.inr (hkept x (Or.inr rfl)))
      · exact Or.inl hx
    · exact Or.inr (Or.inl hatt)
    · exact Or.inr (Or.inr (hkept x (Or.inl hctrl)))

/-- The connection that is served changes: what its guards were on goes back to the pool, or the
thread sees to it. -/
theorem Conserved.setObj (h : s.Conserved) {fd : ℤ} {c : ConnId} {conn : MConnection}
    {bs : List BufId} {ctrl : Ctrl} (hold : s.ctrl.serving = some (fd, c))
    (hnew : ctrl.serving = some (fd, c))
    (hkept : ∀ b, b ∈ (s.obj c).guardBufs ∨ b ∈ s.ctrl.owed →
      b ∈ conn.guardBufs ∨ b ∈ bs ∨ b ∈ ctrl.owed) :
    (((s.setObj c conn).giveBack bs).goto ctrl).Conserved := by
  have hopen : s.conns fd = some c := h.serving (fd, c) hold
  have hvalid := h.valid fd c hopen
  -- what was held by the connection or the thread is now in one of the three places
  have hnow (b : BufId) (hb : b ∈ (s.obj c).guardBufs ∨ b ∈ s.ctrl.owed) :
      b ∈ s.pool ++ bs ∨ (s.setObj c conn).Attached b ∨ b ∈ ctrl.owed := by
    rcases hkept b hb with hconn | hback | hctrl
    · refine Or.inr (Or.inl ⟨fd, c, hopen, ?_⟩)
      rw [s.obj_setObj_self c conn hvalid]
      exact hconn
    · exact Or.inl (List.mem_append_right _ hback)
    · exact Or.inr (Or.inr hctrl)
  refine ⟨?_, ?_, ?_⟩
  · intro fd' c' hconn
    have hlt := h.valid fd' c' hconn
    rwa [goto_objs, giveBack_objs, setObj_objs, List.length_set]
  · intro p hp
    have hserved : p ∈ ctrl.serving := hp
    rw [hnew] at hserved
    cases hserved
    exact hopen
  · intro b hb
    rcases h.accounted b hb with hpool | ⟨fd', c', hconn, hguard⟩ | hctrl
    · exact Or.inl (List.mem_append_left _ hpool)
    · by_cases hne : c' = c
      · subst hne
        exact hnow b (Or.inl hguard)
      · refine Or.inr (Or.inl ⟨fd', c', hconn, ?_⟩)
        show b ∈ ((s.setObj c conn).obj c').guardBufs
        rw [s.obj_setObj_of_ne c conn hne]
        exact hguard
    · exact hnow b (Or.inr hctrl)

theorem Conserved.parsed (h : s.Conserved) {w : Receiving} {loop : Loop} {length : ℤ}
    {reqs : List MRequest} {p : ParseState} (hctrl : s.ctrl = .parse w loop length reqs)
    (hp : (s.parsing w loop length reqs).step = some p) : (s.parsed w p).Conserved := by
  have hmove : (((s.setObj w.conn p.conn).giveBack []).goto
      (.parse w p.loop p.length p.reqs)).Conserved := by
    apply h.setObj (by rw [hctrl]; rfl) rfl
    intro b hb
    -- the chunk itself stays with the thread while it is parsed
    by_cases hw : b = w.buf
    · exact Or.inr (Or.inr (List.mem_append_right _ (List.mem_singleton.mpr hw)))
    · have hold : b ∈ (s.parsing w loop length reqs).guardBufs := by
        rcases hb with hb | hb
        · exact List.mem_append_left _ hb
        · rw [hctrl] at hb
          simp only [Ctrl.owed, Ctrl.guardBufs, Ctrl.allocated, Ctrl.parsing, List.nil_append,
            List.mem_append, List.mem_singleton, hw, or_false] at hb
          exact List.mem_append_right _ hb
      rcases List.mem_append.mp (ParseState.subset_step hp hold) with hb | hb
      · exact Or.inl hb
      · exact Or.inr (Or.inr (List.mem_append_left _ hb))
  rw [giveBack_nil] at hmove
  exact hmove.setBuf _ _

/-- `parse_connection` returns, and a guard is on the chunk. -/
theorem Conserved.returned (h : s.Conserved) {w : Receiving} {loop : Loop} {length : ℤ}
    {reqs : List MRequest} {ctrl : Ctrl} (hctrl : s.ctrl = .parse w loop length reqs)
    (hpin : w.buf ∈ (s.parsing w loop length reqs).guardBufs)
    (hnext : reqs = [] ∧ ctrl = .recvRun w.fd w.conn ∨ ctrl = .doRequest w reqs reqs) :
    (s.goto ctrl).Conserved := by
  have hopen := h.serving (w.fd, w.conn) (by rw [hctrl]; rfl)
  have hreqs (b : BufId) (hb : b ∈ reqs.flatMap MRequest.guardBufs) : b ∈ ctrl.owed := by
    rcases hnext with ⟨rfl, -⟩ | rfl
    · cases hb
    · exact List.mem_append_left _ hb
  apply h.goto
  · rw [hctrl]
    rcases hnext with ⟨-, rfl⟩ | rfl
    · exact Or.inr rfl
    · exact Or.inr rfl
  · intro b hb
    -- the chunk is from now on held by its guard alone
    have hheld : b ∈ (s.parsing w loop length reqs).guardBufs := by
      rw [hctrl] at hb
      rcases List.mem_append.mp hb with hb | hb
      · exact List.mem_append_right _ hb
      · rw [List.mem_singleton.mp hb]
        exact hpin
    rcases List.mem_append.mp hheld with hb | hb
    · exact Or.inl ⟨w.fd, w.conn, hopen, hb⟩
    · exact Or.inr (hreqs b hb)

/-- What is left of a response goes from the hands of the thread into the queue. -/
theorem Conserved.queued (h : s.Conserved) {w : Receiving} {held todo : List MRequest} {out : BufId}
    {remain : ℤ} {conn : MConnection} (hctrl : s.ctrl = .doResponse w held todo out remain)
    (hconn : conn.guardBufs = (s.obj w.conn).guardBufs ++ [out]) :
    ((s.setObj w.conn conn).goto (.doRequest w held todo)).Conserved := by
  have hmove : (((s.setObj w.conn conn).giveBack []).goto (.doRequest w held todo)).Conserved := by
    apply h.setObj (by rw [hctrl]; rfl) rfl
    intro b hb
    rw [hctrl] at hb
    rw [hconn]
    rcases hb with hb | hb
    · exact Or.inl (List.mem_append_left _ hb)
    · rcases List.mem_append.mp hb with hb | hb
      · exact Or.inr (Or.inr (List.mem_append_left _ hb))
      · exact Or.inl (List.mem_append_right _ hb)
  rwa [giveBack_nil] at hmove

theorem Conserved.flushed (h : s.Conserved) {fd : ℤ} {c : ConnId} {conn : MConnection}
    {bs : List BufId} (hctrl : s.ctrl = .sendBuf fd c)
    (hconn : ∀ x, bs.count x + conn.guardBufs.count x = (s.obj c).guardBufs.count x) :
    ((s.setObj c conn).giveBack bs).Conserved := by
  have hmove : (((s.setObj c conn).giveBack bs).goto s.ctrl).Conserved := by
    apply h.setObj (by rw [hctrl]; rfl) (by rw [hctrl]; rfl)
    intro b hb
    rcases hb with hb | hb
    · have hx := hconn b
      have hpos := List.count_pos_iff.mpr hb
      by_cases hback : b ∈ bs
      · exact Or.inr (Or.inl hback)
      · rw [List.count_eq_zero.mpr hback] at hx
        exact Or.inl (List.count_pos_iff.mp (by omega))
    · exact Or.inr (Or.inr hb)
  exact hmove

theorem conserved_step (h : s.Conserved) (hc : s.Lossless e) (hstep : s.step parse e = some t) :
    t.Conserved := by
  have hst := stepped_of_step hstep
  obtain ⟨hrefuse, hover, hclose⟩ := hc
  cases hst with
  | accept hctrl hfd => exact h.addConn hctrl hfd
  | ignored => exact h
  | epollin hctrl hfd => exact h.serve hctrl hfd rfl
  | epollout hctrl hfd => exact h.serve hctrl hfd rfl
  | @exhausted fd c hctrl hpool =>
    have hopen := h.serving (fd, c) (by rw [hctrl]; rfl)
    have hnil := hclose c (by simp [closes, hctrl, hpool])
    have hidle : (s.goto .idle).Conserved := h.goto (Or.inl rfl) (by simp [hctrl])
    exact hidle.closeConn hopen hnil rfl
  | allocate hctrl hpool =>
    exact h.allocate hpool (by rw [hctrl]; rfl) (by simp [hctrl])
  | received hctrl hopen hne =>
    apply (h.setBuf _ _).goto
    · right
      rw [setBuf_ctrl, hctrl]
      rfl
    · simp [hctrl]
  | retry hctrl hnext =>
    apply h.giveBack
    · rw [hctrl]
      rcases hnext with rfl | rfl
      · exact Or.inl rfl
      · exact Or.inr rfl
    · intro b hb
      exact Or.inl (by simpa [hctrl] using hb)
  | @hangUp _ w hctrl he =>
    have hopen := h.serving (w.fd, w.conn) (by rw [hctrl]; rfl)
    have hnil : (s.obj w.conn).guardBufs = [] := by
      apply hclose
      rcases he with rfl | ⟨errno, rfl, hagain, hintr⟩
      · simp [closes, hctrl]
      · simp [closes, hctrl, hagain, hintr]
    have hidle : ((s.giveBack [w.buf]).goto .idle).Conserved := by
      apply h.giveBack (Or.inl rfl)
      intro b hb
      exact Or.inl (by simpa [hctrl] using hb)
    exact hidle.closeConn hopen hnil rfl
  | parse hctrl hp => exact h.parsed hctrl hp
  | @parsed w loop length reqs ctrl hctrl hp hnext =>
    have hpin : w.buf ∈ (s.parsing w loop length reqs).guardBufs := by
      by_contra hout
      simp [overlooks, hctrl, hp, hout] at hover
    exact h.returned hctrl hpin hnext
  | skip hctrl =>
    apply h.goto
    · exact Or.inr (by rw [hctrl]; rfl)
    · intro b hb
      exact Or.inr (by simpa [hctrl] using hb)
  | @respond w held todo _ bytes out pool hctrl hpool =>
    have hcon : Conserved
        { s with pool := pool, ctrl := .doResponse w held todo out bytes.length } :=
      h.allocate hpool (by rw [hctrl]; rfl) (by simp [hctrl])
    exact hcon.setBuf _ _
  | destroy hctrl =>
    apply h.giveBack
    · exact Or.inr (by rw [hctrl]; rfl)
    · intro b hb
      exact Or.inl (by simpa [hctrl] using hb)
  | refused hctrl ho => simp [refuses, hctrl, ho] at hrefuse
  | queued hctrl ho hk => exact (h.setBuf _ _).queued hctrl (MConnection.guardBufs_append _ _)
  | @answered w held todo out remain k o hctrl ho hk =>
    apply (h.setBuf _ _).giveBack
    · exact Or.inr (by rw [setBuf_ctrl, hctrl]; rfl)
    · intro b hb
      have howed : b ∈ held.flatMap MRequest.guardBufs ++ ([out] ++ []) := by
        rw [setBuf_ctrl, hctrl] at hb
        exact hb
      rcases List.mem_append.mp howed with hb | hb
      · exact Or.inr (Or.inr (List.mem_append_left _ hb))
      · exact Or.inl hb
  | drained hctrl => exact h.goto (Or.inl rfl) (by simp [hctrl])
  | @broken fd c _ _ _ hctrl hnext ho =>
    have hopen := h.serving (fd, c) (by rw [hctrl]; rfl)
    have hnil := hclose c (by simp [closes, hctrl, hnext, ho])
    have hidle : (s.goto .idle).Conserved := h.goto (Or.inl rfl) (by simp [hctrl])
    exact hidle.closeConn hopen hnil rfl
  | flushed hctrl hnext ho => exact h.flushed hctrl (MConnection.count_guardBufs_flushed hnext ho)

/-- Whenever the thread is back in `epoll_wait` every buffer is in the pool or under a guard of
an open connection. -/
theorem buffers_complete (parse : List UInt8 → RpcHeader) (s : Server)
    (h : Reachable (step parse) Lossless .new s) (hctrl : s.ctrl = .idle) : s.Complete := by
  have hcon : s.Conserved := by
    apply Reachable.invariant Conserved conserved_new _ h
    intro s e t hs hc hstep
    exact conserved_step hs hc hstep
  refine ⟨fun b hb => hcon.idle hctrl hb, ?_⟩
  intro hnone b hb
  rcases hcon.idle hctrl hb with hpool | ⟨fd, c, hconn, -⟩
  · exact hpool
  · rw [hnone fd] at hconn
    cases hconn

/-- The client closes the connection after the response to its message. -/
theorem buffers_complete_closed :
    ∃ s, runIf (step clientParse) Lossless .new (wholeEvents ++ [.run, .received []]) = some s ∧
      s.ctrl = .idle ∧ s.Complete := by
  have hrun : (runIf (step clientParse) Lossless .new (wholeEvents ++ [.run, .received []])).map
      (fun s => s.ctrl) = some .idle := by decide +kernel
  obtain ⟨s, hs, hctrl⟩ := Option.map_eq_some_iff.mp hrun
  exact ⟨s, hs, hctrl, buffers_complete clientParse s (.of_runIf .init hs) hctrl⟩

/-- A chunk that ends with the magic bytes: no guard is built on its buffer, which nobody gives
back. -/
theorem magic_chunk_lost : ¬ ∀ s, Reachable (step clientParse) (fun _ _ => True) .new s →
    s.ctrl = .idle → s.Complete := by
  intro h
  have hrun : (runIf (step clientParse) (fun _ _ => True) .new [.accept 7, .epollin 7, .run,
      .received MAGIC, .run, .run, .run, .recvFailed EAGAIN]).map
      (fun s => (s.ctrl, s.pool, s.objs.flatMap MConnection.guardBufs)) =
      some (.idle, List.range' 2 1022 ++ [1], []) := by decide +kernel
  obtain ⟨s, hs, hstate⟩ := Option.map_eq_some_iff.mp hrun
  obtain ⟨hctrl, hpool, hnil⟩ : s.ctrl = .idle ∧ s.pool = List.range' 2 1022 ++ [1] ∧
      s.objs.flatMap MConnection.guardBufs = [] := by
    simpa only [Prod.mk.injEq] using hstate
  rcases (h s (.of_runIf .init hs) hctrl).held 0 (by decide) with hmem | ⟨fd, c, -, hguard⟩
  · rw [hpool] at hmem
    simp at hmem
  · have hmem := s.mem_objs_of_mem_obj MConnection.guardBufs c rfl hguard
    rw [hnil] at hmem
    cases hmem

end Conservation

end Server

end MgRaffle.MgServer
