import MgRaffle.MgServer.Isolation

namespace MgRaffle.MgServer
open Collector Stepping

/-- What the coming call of `send` is given, and for which connection. -/
def Server.offers (s : Server) : Option (ConnId × Region) :=
  match s.ctrl with
  | .doResponse w _ _ out remain => some (w.conn, ⟨out, (s.heap out).curIndex, remain⟩)
  | .sendBuf _ c => (s.obj c).sendBuf.next.map fun p => (c, p.1)
  | _ => none

section Regions

variable {r r' : MReadBuf} {data : Region}

/-- The end of a region is the end of its bytes. -/
theorem Region.bytes_suffix (store : BufId → List UInt8) (g : Region) {k : ℤ} (hi : 0 ≤ g.index)
    (hk : 0 ≤ k) (h : k ≤ g.size) :
    (⟨g.buf, g.index + k, g.size - k⟩ : Region).bytes store <:+ g.bytes store := by
  unfold Region.bytes
  rw [← slice_append hi hk h]
  exact List.suffix_append _ _

/-- The position stays in front of the bytes that are left. -/
theorem position_queuedSend {o : SysResult} {q : Option MBufferGuard} (hpos : 0 ≤ r.curPos)
    (hnext : r.next = some (data, r')) {r'' : MReadBuf}
    (h : queuedSend r' data.size o = some (q, r'')) : 0 ≤ r''.curPos := by
  unfold MReadBuf.next at hnext
  split at hnext
  · rename_i g hg
    cases hnext
    unfold queuedSend at h
    simp only at h
    -- nothing of the region was sent, as the socket is full, or a part of it, or the whole
    split_ifs at h
    · cases h
      unfold MReadBuf.backUp
      split_ifs
      · simp only [Nat.add_sub_cancel, hg, Option.map_some, Option.getD_some]
        omega
      · exact hpos
    · cases h
      unfold MReadBuf.backUp
      split_ifs
      · simp only [Nat.add_sub_cancel, hg, Option.map_some, Option.getD_some]
        omega
      · exact hpos
    · have herase := (Option.some.inj h)
      unfold MReadBuf.erase at herase
      simp only at herase
      split_ifs at herase <;> cases herase <;> exact hpos
  · cases hnext

end Regions

namespace Traced
open Server

/-- The region holds the end of a response that `do_request` has made for the connection. -/
structure Owns (s : Traced) (c : ConnId) (g : Region) : Prop where
  index : 0 ≤ g.index
  response : ∃ msg resp, (msg, some resp) ∈ s.handled c ∧ g.bytes s.server.store <:+ resp

/-- Everything that is queued or is being sent belongs to the connection that it goes to. -/
structure Undisclosed (s : Traced) : Prop where
  queued : ∀ c, ∀ g ∈ (s.server.obj c).sendBuf.bufList, s.Owns c g.toRegion
  position : ∀ c, 0 ≤ (s.server.obj c).sendBuf.curPos
  responding : ∀ w held todo out remain, s.server.ctrl = .doResponse w held todo out remain →
    s.Owns w.conn ⟨out, (s.server.heap out).curIndex, remain⟩

variable {parse : List UInt8 → RpcHeader} {s : Traced} {t : Server} {e : Event} {c : ConnId}
  {stream : ConnId → List UInt8} {handled : ConnId → List Answer}

theorem undisclosed_start : start.Undisclosed where
  queued := fun _ _ h => (by cases h)
  position := fun _ => le_rfl
  responding := fun _ _ _ _ _ h => (by cases h)

theorem queueBufs_subset (q : Server) {g : MBufferGuard} (hg : g ∈ (q.obj c).sendBuf.bufList) :
    g.buf ∈ q.guardBufs := by
  apply List.mem_append_left
  apply q.mem_objs_of_mem_obj MConnection.guardBufs c rfl
  exact List.mem_append_right _ (List.mem_map.mpr ⟨g, hg, rfl⟩)

theorem Owns.transfer {g : Region} (h : s.Owns c g) (hstore : t.store g.buf = s.server.store g.buf)
    (hhandled : s.handled c ⊆ handled c) : (⟨t, stream, handled⟩ : Traced).Owns c g := by
  obtain ⟨msg, resp, hmem, hsuffix⟩ := h.response
  refine ⟨h.index, msg, resp, hhandled hmem, ?_⟩
  show g.bytes t.store <:+ resp
  rwa [Region.bytes, hstore]

/-- A step that queues nothing. -/
theorem Undisclosed.transfer (h : s.Undisclosed)
    (hstore : ∀ b ∈ s.server.guardBufs, t.store b = s.server.store b)
    (hhandled : ∀ c, s.handled c ⊆ handled c)
    (hsend : ∀ c, (t.obj c).sendBuf = (s.server.obj c).sendBuf)
    (hresponding : ∀ w held todo out remain, t.ctrl = .doResponse w held todo out remain →
      (⟨t, stream, handled⟩ : Traced).Owns w.conn ⟨out, (t.heap out).curIndex, remain⟩) :
    (⟨t, stream, handled⟩ : Traced).Undisclosed where
  queued := by
    intro c g hg
    have hg : g ∈ (t.obj c).sendBuf.bufList := hg
    rw [hsend] at hg
    exact (h.queued c g hg).transfer (hstore _ (queueBufs_subset _ hg)) (hhandled c)
  position := by
    intro c
    show 0 ≤ (t.obj c).sendBuf.curPos
    rw [hsend]
    exact h.position c
  responding := hresponding

/-- A step that queues nothing and starts no response. -/
theorem Undisclosed.quiet (h : s.Undisclosed)
    (hstore : ∀ b ∈ s.server.guardBufs, t.store b = s.server.store b)
    (hhandled : ∀ c, s.handled c ⊆ handled c)
    (hsend : ∀ c, (t.obj c).sendBuf = (s.server.obj c).sendBuf)
    (hctrl : ∀ w held todo out remain, t.ctrl ≠ .doResponse w held todo out remain) :
    (⟨t, stream, handled⟩ : Traced).Undisclosed :=
  h.transfer hstore hhandled hsend fun w held todo out remain heq =>
    absurd heq (hctrl w held todo out remain)

theorem subset_record {α : Type*} (f : ConnId → List α) (x : Option (ConnId × List α)) (c : ConnId) :
    f c ⊆ record f x c := by
  cases x with
  | none => exact List.Subset.refl _
  | some p =>
    by_cases hc : c = p.1
    · rw [hc, record_self]
      exact List.subset_append_left _ _
    · rw [record_of_ne _ _ hc]
      exact List.Subset.refl _

/-- `do_request` comes to a request; its response is written in front of what is offered. -/
theorem Undisclosed.respond (h : s.Undisclosed) {w : Receiving} {held todo : List MRequest}
    {r : MRequest} (hctrl : s.server.ctrl = .doRequest w held (r :: todo))
    (hc : s.server.Apart parse .run)
    (hstore : ∀ b ∈ s.server.guardBufs, t.store b = s.server.store b)
    (ht : t = s.server.request parse w held r todo) :
    (⟨t, stream, record s.handled (some (w.conn, [r.answer parse s.server.store]))⟩ :
      Traced).Undisclosed := by
  have hhandled := subset_record s.handled (some (w.conn, [r.answer parse s.server.store]))
  unfold request at ht
  split at ht
  · rename_i bytes out pool hresponse hpool
    obtain ⟨-, hcur, hfits⟩ := hc (out, bytes) (by simp [writes, hctrl, hresponse, hpool])
    apply h.transfer hstore hhandled
    · rw [ht]
      exact fun _ => rfl
    · intro w' held' todo' out' remain hresponds
      have hheap : t.heap out = (s.server.heap out).write bytes := by
        rw [ht, goto_heap, setBuf_heap, Function.update_self]
      rw [ht] at hresponds
      cases hresponds
      refine ⟨?_, r.message s.server.store, bytes, ?_, ?_⟩
      · show 0 ≤ (t.heap out).curIndex
        rw [hheap]
        exact hcur
      · show _ ∈ record s.handled (some (w.conn, [r.answer parse s.server.store])) w.conn
        rw [record_self, List.mem_append, List.mem_singleton, ← hresponse]
        exact Or.inr rfl
      · show slice (t.heap out).storage (t.heap out).curIndex bytes.length <:+ bytes
        rw [hheap]
        exact (slice_memcpy hfits).symm ▸ List.suffix_refl _
  · apply h.quiet hstore hhandled
    · rw [ht]
      exact fun _ => rfl
    · rw [ht]
      exact fun _ _ _ _ _ => Ctrl.noConfusion

/-- What is left of a response is queued. -/
theorem Undisclosed.enqueue (h : s.Undisclosed) {w : Receiving} {held todo : List MRequest}
    {out : BufId} {remain k : ℤ} {o : SysResult}
    (hctrl : s.server.ctrl = .doResponse w held todo out remain) (ho : directSend o = some k)
    (hk : 0 < remain - k) {t : Server}
    (hstore : ∀ b ∈ s.server.guardBufs, t.store b = s.server.store b)
    (hhandled : ∀ c, s.handled c ⊆ handled c)
    (ht : t = ((s.server.setBuf out ((s.server.heap out).consume k)).setObj w.conn
      { s.server.obj w.conn with
        sendBuf := (s.server.obj w.conn).sendBuf.append
          (.new out ((s.server.heap out).consume k) (remain - k)) }).goto (.doRequest w held todo)) :
    (⟨t, stream, handled⟩ : Traced).Undisclosed := by
  obtain ⟨hindex, msg, resp, hmem, hsuffix⟩ := h.responding w held todo out remain hctrl
  have hk0 := (directSend_nonneg ho).1
  -- only the queue of the connection that is answered changes
  have hcases (c : ConnId) : (t.obj c).sendBuf = (s.server.obj c).sendBuf ∨
      c = w.conn ∧ (t.obj c).sendBuf = (s.server.obj w.conn).sendBuf.append
        (.new out ((s.server.heap out).consume k) (remain - k)) := by
    rw [ht]
    exact obj_setObj_cases.imp (congrArg MConnection.sendBuf)
      (And.imp_right (congrArg MConnection.sendBuf))
  refine ⟨?_, ?_, ?_⟩
  · intro c g hg
    have hg : g ∈ (t.obj c).sendBuf.bufList := hg
    rcases hcases c with heq | ⟨rfl, heq⟩
    · rw [heq] at hg
      exact (h.queued c g hg).transfer (hstore _ (queueBufs_subset _ hg)) (hhandled c)
    · rw [heq] at hg
      rcases List.mem_append.mp hg with hg | hg
      · exact (h.queued _ g hg).transfer (hstore _ (queueBufs_subset _ hg)) (hhandled _)
      · rw [List.mem_singleton.mp hg]
        have hindex : 0 ≤ (s.server.heap out).curIndex := hindex
        refine ⟨show 0 ≤ (s.server.heap out).curIndex + k by omega, msg, resp, hhandled _ hmem, ?_⟩
        have hstores : t.store out = s.server.store out := by
          rw [ht]
          exact congrFun store_setBuf_consume out
        -- `k` bytes are sent, and the guard begins behind them
        have hend := Region.bytes_suffix s.server.store ⟨out, (s.server.heap out).curIndex, remain⟩
          hindex hk0 (show k ≤ remain by omega)
        show slice (t.store out) ((s.server.heap out).curIndex + k) (remain - k) <:+ resp
        rw [hstores]
        exact hend.trans hsuffix
  · intro c
    show 0 ≤ (t.obj c).sendBuf.curPos
    rcases hcases c with heq | ⟨rfl, heq⟩
    · rw [heq]
      exact h.position c
    · rw [heq]
      exact h.position _
  · intro _ _ _ _ _ heq
    rw [ht] at heq
    cases heq

/-- A turn of `SendBuf` takes something out of the queue, or nothing. -/
theorem Undisclosed.flush (h : s.Undisclosed) {c : ConnId} {data : Region} {r r' : MReadBuf}
    {g : Option MBufferGuard} {o : SysResult} {fd : ℤ} (hctrl : s.server.ctrl = .sendBuf fd c)
    (hnext : (s.server.obj c).sendBuf.next = some (data, r))
    (ho : queuedSend r data.size o = some (g, r')) {t : Server}
    (hstore : ∀ b ∈ s.server.guardBufs, t.store b = s.server.store b)
    (hhandled : ∀ c, s.handled c ⊆ handled c)
    (ht : t = (s.server.setObj c { s.server.obj c with sendBuf := r' }).giveBack
      (g.toList.map fun g => g.buf)) :
    (⟨t, stream, handled⟩ : Traced).Undisclosed := by
  have hcases (d : ConnId) : (t.obj d).sendBuf = (s.server.obj d).sendBuf ∨
      d = c ∧ (t.obj d).sendBuf = r' := by
    rw [ht]
    exact obj_setObj_cases.imp (congrArg MConnection.sendBuf)
      (And.imp_right (congrArg MConnection.sendBuf))
  have hsubset : r'.bufList ⊆ (s.server.obj c).sendBuf.bufList := by
    rw [← MReadBuf.bufList_next hnext]
    exact fun g' hg' => (perm_queuedSend ho).subset (List.mem_append_right _ hg')
  refine ⟨?_, ?_, ?_⟩
  · intro d g' hg
    have hg : g' ∈ (t.obj d).sendBuf.bufList := hg
    have hold : g' ∈ (s.server.obj d).sendBuf.bufList := by
      rcases hcases d with heq | ⟨rfl, heq⟩
      · rwa [heq] at hg
      · rw [heq] at hg
        exact hsubset hg
    exact (h.queued d g' hold).transfer (hstore _ (queueBufs_subset _ hold)) (hhandled d)
  · intro d
    show 0 ≤ (t.obj d).sendBuf.curPos
    rcases hcases d with heq | ⟨rfl, heq⟩
    · rw [heq]
      exact h.position d
    · rw [heq]
      exact position_queuedSend (h.position _) hnext ho
  · intro _ _ _ _ _ heq
    rw [ht, giveBack_ctrl, setObj_ctrl, hctrl] at heq
    cases heq

theorem undisclosed_step {s' : Traced} (h : s.Undisclosed) (hc : s.server.Apart parse e)
    (hstep : s.step parse e = some s') : s'.Undisclosed := by
  obtain ⟨t, ht, rfl⟩ := Option.map_eq_some_iff.mp hstep
  have hframe : ∀ b ∈ s.server.guardBufs, t.store b = s.server.store b :=
    fun b hb => store_step hc ht hb
  have hhandled := subset_record s.handled (s.server.handles parse e)
  cases stepped_of_step ht with
  | accept hctrl hfd =>
    apply h.quiet hframe hhandled (fun _ => part_addConn rfl)
    rw [addConn_ctrl, hctrl]
    exact fun _ _ _ _ _ => Ctrl.noConfusion
  | ignored hctrl =>
    apply h.quiet hframe hhandled (fun _ => rfl)
    rw [hctrl]
    exact fun _ _ _ _ _ => Ctrl.noConfusion
  | @retry e w ctrl hctrl hnext =>
    apply h.quiet hframe hhandled (fun _ => rfl)
    rcases hnext with rfl | rfl <;> exact fun _ _ _ _ _ => Ctrl.noConfusion
  | parse hctrl hp =>
    apply h.quiet hframe hhandled _ fun _ _ _ _ _ => Ctrl.noConfusion
    exact fun _ => part_setObj (ParseState.step_frame hp).2.1
  | parsed hctrl hp hnext =>
    apply h.quiet hframe hhandled (fun _ => rfl)
    rcases hnext with ⟨-, rfl⟩ | rfl <;> exact fun _ _ _ _ _ => Ctrl.noConfusion
  | @respond w held todo r _ _ _ hctrl hpool =>
    rw [handles_request hctrl]
    apply h.respond hctrl hc hframe
    rw [step_request hctrl] at ht
    exact (Option.some.inj ht).symm
  | queued hctrl ho hk => exact h.enqueue hctrl ho hk hframe hhandled rfl
  | flushed hctrl hnext ho => exact h.flush hctrl hnext ho hframe hhandled rfl
  | _ => exact h.quiet hframe hhandled (fun _ => rfl) fun _ _ _ _ _ => Ctrl.noConfusion

theorem undisclosed_of_reachable
    (h : Reachable (step parse) (fun s e => s.server.Apart parse e) start s) : s.Undisclosed := by
  apply h.invariant Undisclosed undisclosed_start
  intro s e t hs hc hstep
  exact undisclosed_step hs hc hstep

/-- What `send` is given for a connection is the end of a response to one of the frames of that
connection's own stream. -/
theorem offers_own (parse : List UInt8 → RpcHeader) (s : Traced)
    (h : Reachable (step parse) (fun s e => s.server.Apart parse e) start s) (c : ConnId)
    (hn : ActedNonneg (s.stream c)) (data : Region) (hoffers : s.server.offers = some (c, data))
    (hsize : 0 ≤ data.size) :
    ∃ t fs, frameReader.Reads fresh (s.stream c) t fs ∧ ∃ f ∈ fs, ∃ resp,
      f.content.message.response parse = some resp ∧ data.bytes s.server.store <:+ resp := by
  have hown := undisclosed_of_reachable h
  obtain ⟨msg, resp, hmem, hsuffix⟩ : ∃ msg resp, (msg, some resp) ∈ s.handled c ∧
      data.bytes s.server.store <:+ resp := by
    unfold offers at hoffers
    split at hoffers
    · rename_i w held todo out remain hctrl
      cases hoffers
      exact (hown.responding w held todo out remain hctrl).response
    · rename_i fd c' hctrl
      obtain ⟨⟨data', r⟩, hnext, heq⟩ := Option.map_eq_some_iff.mp hoffers
      cases heq
      unfold MReadBuf.next at hnext
      split at hnext
      · rename_i g hg
        cases hnext
        obtain ⟨hindex, msg, resp, hmem, hsuffix⟩ := hown.queued c g (List.mem_of_getElem? hg)
        have hend := Region.bytes_suffix s.server.store g.toRegion hindex (hown.position c)
          (by simp only at hsize; omega)
        exact ⟨msg, resp, hmem, hend.trans hsuffix⟩
      · cases hnext
    · cases hoffers
  -- what was handled are answers to the frames of the stream
  obtain ⟨t, fs, hr⟩ := hn.reads
  obtain ⟨f, hf, heq⟩ := List.mem_map.mp (((isolated_of_reachable h).handled_begins hr).subset hmem)
  exact ⟨t, fs, hr, f, hf, resp, congrArg Prod.snd heq, hsuffix⟩

/-- The socket takes ten bytes of the response, and the rest is offered when it can take more. -/
def queuedEvents : List Event :=
  interleavedEvents.take 33 ++ [.sent ⟨10, 0⟩, .run, .run, .recvFailed EAGAIN, .epollout 7]

theorem offers_own_queued : ∃ s data,
    runIf (step clientParse) (fun s e => s.server.Apart clientParse e) start queuedEvents = some s ∧
    s.server.offers = some (0, data) ∧ data.size = 18 ∧
    ∃ t fs, frameReader.Reads fresh (s.stream 0) t fs ∧ ∃ f ∈ fs, ∃ resp,
      f.content.message.response clientParse = some resp ∧ data.bytes s.server.store <:+ resp := by
  have hrun : (runIf (step clientParse) (fun s e => s.server.Apart clientParse e) start
      queuedEvents).map (fun s => (s.stream 0, s.server.offers)) =
      some (clientMessage.encode, some (0, ⟨5, 10, 18⟩)) := by decide +kernel
  obtain ⟨s, hs, hrest⟩ := Option.map_eq_some_iff.mp hrun
  simp only [Prod.mk.injEq] at hrest
  obtain ⟨hstream, hoffers⟩ := hrest
  have hn : ActedNonneg (s.stream 0) := by
    rw [hstream]
    exact (lengthsNonneg_of_check (by decide : frameReader.check _ 12 fresh _ = true)).loaded.acted
  exact ⟨s, _, hs, hoffers, rfl, offers_own clientParse s (.of_runIf .init hs) 0 hn _ hoffers (by decide)⟩

end Traced

end MgRaffle.MgServer
