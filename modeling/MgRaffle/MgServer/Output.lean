import MgRaffle.Library.Stepping
import MgRaffle.MgServer.Feeding

namespace MgRaffle.MgServer
open Stepping

/-- What `send` or `recv` returns, and `errno` after it. -/
structure SysResult where
  ret : ℤ
  errno : ℕ
  deriving Repr, DecidableEq

def EINTR : ℕ := 4

def EAGAIN : ℕ := 11

def EWOULDBLOCK : ℕ := 11

section Sending

/-- The `switch` after the `send` of `do_response`: `none` closes the connection, `some k` goes
on with the `k` bytes that were accepted. -/
def directSend (o : SysResult) : Option ℤ :=
  if o.ret = 0 then none
  else if o.ret < 0 then
    if o.errno = EAGAIN ||| EWOULDBLOCK ∨ o.errno = EINTR then some 0 else none
  else some o.ret

/-- The `switch` after the `send` of `SendBuf`, on the queue that `Next` has left and the size
that it has handed out: `none` closes the connection, the guard is the one that `Erase` destroys. -/
def queuedSend (r : MReadBuf) (size : ℤ) (o : SysResult) :
    Option (Option MBufferGuard × MReadBuf) :=
  if o.ret = 0 then none
  else if o.ret < 0 then
    if o.errno = EAGAIN ||| EWOULDBLOCK ||| EINTR then some (none, r.backUp size) else none
  else if o.ret < size then some (none, r.backUp (size - o.ret))
  else some r.erase

end Sending

/-- The output side of one connection. `storage` holds the buffer of each response, `issued`
the responses so far, one after the other, `accepted` what the socket has taken, and `sending` says
that a call of `SendBuf` is under way. -/
structure Output where
  sendBuf : MReadBuf
  storage : List (List UInt8)
  issued : List UInt8
  accepted : List UInt8
  closed : Bool
  sending : Bool
  deriving Repr, DecidableEq

inductive OutputEvent
  | respond (bytes : List UInt8) (o : SysResult)
  | sendBuf
  | turn (o : SysResult)
  deriving Repr, DecidableEq

namespace Output

def new : Output := ⟨.new, [], [], [], false, false⟩

/-- What the queue still delivers. -/
def pending (s : Output) : List UInt8 := s.sendBuf.pending (storeOf s.storage)

/-- `SendQueue` of what is left of a response, if anything is. -/
def queue (s : Output) (id : BufId) (buf : MBuffer) (remain : ℤ) : Output :=
  if 0 < remain then { s with sendBuf := s.sendBuf.append (.new id buf remain) } else s

/-- `do_response`, with a new buffer for the response. -/
def respond (s : Output) (bytes : List UInt8) (o : SysResult) : Output :=
  let buf := (MBuffer.new POOL_BUFFER_CAPACITY).write bytes
  let s' := { s with storage := s.storage ++ [buf.storage], issued := s.issued ++ bytes }
  match directSend o with
  | none => { s' with closed := true }
  | some k =>
    { s' with accepted := s.accepted ++ buf.read k }.queue s.storage.length (buf.consume k)
      (bytes.length - k)

/-- One turn of the loop of `SendBuf`. -/
def turn (s : Output) (o : SysResult) : Output :=
  match s.sendBuf.next with
  | none => { s with sending := false }
  | some (data, r) =>
    match queuedSend r data.size o with
    | none => { s with closed := true, sending := false }
    | some (_, r) =>
      { s with
        sendBuf := r
        accepted := s.accepted ++ slice (storeOf s.storage data.buf) data.index o.ret }

/-- The bytes that a call of `send` is asked to send, as far as the event makes one. -/
def requested (s : Output) : OutputEvent → ℤ
  | .respond bytes _ => bytes.length
  | .sendBuf => 0
  | .turn _ => (s.sendBuf.next.map fun p => p.1.size).getD 0

/-- The socket accepts no more than it is asked to, responses have their own buffers, and the
two ways of sending do not interrupt each other. -/
def step (s : Output) (e : OutputEvent) : Option Output :=
  if s.closed then none
  else match e with
    | .respond bytes o =>
      if ¬ s.sending ∧ bytes.length ≤ POOL_BUFFER_CAPACITY ∧ o.ret ≤ s.requested e then
        some (s.respond bytes o)
      else none
    | .sendBuf => if ¬ s.sending then some { s with sending := true } else none
    | .turn o =>
      if s.sending ∧ (o.ret ≤ s.requested e ∨ s.sendBuf.next = none) then some (s.turn o) else none

end Output

/-- The queue is read from the front, and only its front may be partly sent. -/
structure Intact (s : Output) : Prop where
  atFront : s.sendBuf.curIt = 0
  cursor : 0 ≤ s.sendBuf.curPos
  single : s.sendBuf.curPos = 0 ∨ s.sendBuf.bufList.length ≤ 1
  guards : ∀ g ∈ s.sendBuf.bufList, g.buf < s.storage.length ∧ 0 ≤ g.index ∧
    s.sendBuf.curPos < g.size
  delivered : s.accepted ++ s.pending = s.issued

/-- No response overtakes the queue, none is queued behind a cursor that has moved, and none is
sent in part with another one behind it. -/
def Orderly (s : Output) : OutputEvent → Prop
  | .respond bytes o => ∀ k ∈ directSend o, (0 < k → s.sendBuf.bufList = []) ∧
      (k < bytes.length → s.sendBuf.curPos = 0)
  | .sendBuf => True
  | .turn o => 0 < o.ret → o.ret < s.requested (.turn o) → s.sendBuf.bufList.length ≤ 1

instance (s : Output) (e : OutputEvent) : Decidable (Orderly s e) := by
  cases e <;> unfold Orderly <;> infer_instance

section Delivery

variable {s t : Output} {g : MBufferGuard} {gs : List MBufferGuard} {r : MReadBuf}

theorem directSend_nonneg {o : SysResult} {k : ℤ} (h : directSend o = some k) :
    0 ≤ k ∧ k ≤ max o.ret 0 := by
  unfold directSend at h
  split_ifs at h <;> cases h <;> omega

theorem storeOf_append_of_lt {storage : List (List UInt8)} {k : ℕ} (x : List UInt8)
    (h : k < storage.length) : storeOf (storage ++ [x]) k = storeOf storage k := by
  simp only [storeOf, List.getD_eq_getElem?_getD, List.getElem?_append_left h]

theorem storeOf_append_self (storage : List (List UInt8)) (x : List UInt8) :
    storeOf (storage ++ [x]) storage.length = x := by
  simp only [storeOf, List.getD_eq_getElem?_getD, List.getElem?_concat_length, Option.getD_some]

theorem pending_congr {store store' : BufId → List UInt8}
    (h : ∀ g ∈ r.bufList, store g.buf = store' g.buf) : r.pending store = r.pending store' := by
  unfold MReadBuf.pending
  apply List.flatMap_congr
  intro g hg
  rw [h g (List.mem_of_mem_drop hg)]

/-- A new response in its buffer. -/
theorem write_storage (bytes : List UInt8) :
    ∃ rest, ((MBuffer.new POOL_BUFFER_CAPACITY).write bytes).storage = bytes ++ rest := by
  exact ⟨_, rfl⟩

theorem slice_front (bytes rest : List UInt8) : slice (bytes ++ rest) 0 bytes.length = bytes := by
  rw [slice, Int.toNat_zero, List.drop_zero, Int.toNat_natCast, List.take_left]

theorem pending_cons (store : BufId → List UInt8) (h : r.curIt = 0) (hl : r.bufList = g :: gs) :
    r.pending store = slice (store g.buf) (g.index + r.curPos) (g.size - r.curPos) ++
      { r with bufList := gs }.pending store := by
  simp only [MReadBuf.pending, h, hl, List.drop_zero, List.flatMap_cons]

theorem intact_new : Intact .new :=
  ⟨rfl, le_rfl, Or.inl rfl, fun _ hg => absurd hg List.not_mem_nil, rfl⟩

/-- The part of a response that is sent at once, and the part that is left. -/
theorem respond_split {bytes x : List UInt8} {k : ℤ} (hx : ∃ rest, x = bytes ++ rest) (hk : 0 ≤ k)
    (hle : k ≤ bytes.length) : slice x 0 k ++ slice x k (bytes.length - k) = bytes := by
  obtain ⟨rest, rfl⟩ := hx
  have h := @slice_append (bytes ++ rest) 0 bytes.length k le_rfl hk hle
  rw [zero_add] at h
  rw [h, slice_front]

/-- What is not sent at once comes behind the queue, which is empty if anything is. -/
theorem delivered_respond {bytes x : List UInt8} {k : ℤ} (h : Intact s) (hk : 0 ≤ k)
    (hsplit : slice x 0 k ++ slice x k (bytes.length - k) = bytes)
    (hover : 0 < k → s.sendBuf.bufList = []) :
    s.accepted ++ slice x 0 k ++ s.sendBuf.pending (storeOf (s.storage ++ [x])) ++
      slice x k (bytes.length - k) = s.issued ++ bytes := by
  have hold : s.sendBuf.pending (storeOf (s.storage ++ [x])) = s.pending := by
    apply pending_congr
    intro g hg
    exact storeOf_append_of_lt x (h.guards g hg).1
  have hfront : slice x 0 k ++ s.pending = s.pending ++ slice x 0 k := by
    rcases hk.eq_or_lt with rfl | hpos
    · rw [slice_zero_size _ _ le_rfl, List.nil_append, List.append_nil]
    · have hnil : s.pending = [] := MReadBuf.pending_nil _ (hover hpos)
      rw [hnil, List.nil_append, List.append_nil]
  calc s.accepted ++ slice x 0 k ++ s.sendBuf.pending (storeOf (s.storage ++ [x])) ++
        slice x k (bytes.length - k)
      = s.accepted ++ (slice x 0 k ++ s.pending) ++ slice x k (bytes.length - k) := by
        rw [hold]
        simp only [List.append_assoc]
    _ = s.accepted ++ s.pending ++ (slice x 0 k ++ slice x k (bytes.length - k)) := by
        rw [hfront]
        simp only [List.append_assoc]
    _ = s.issued ++ bytes := by rw [h.delivered, hsplit]

theorem intact_respond {bytes : List UInt8} {o : SysResult} (h : Intact s)
    (hc : Orderly s (.respond bytes o)) (hret : o.ret ≤ bytes.length)
    (hopen : (s.respond bytes o).closed = false) : Intact (s.respond bytes o) := by
  unfold Output.respond at hopen ⊢
  dsimp only at hopen ⊢
  cases hd : directSend o with
  | none => simp [hd] at hopen
  | some k =>
    dsimp only
    obtain ⟨hk, hkret⟩ := directSend_nonneg hd
    obtain ⟨hover, hbehind⟩ := hc k hd
    let x := ((MBuffer.new POOL_BUFFER_CAPACITY).write bytes).storage
    have hsplit := respond_split (write_storage bytes) hk (by omega)
    have hdel := delivered_respond h hk hsplit hover
    have hguards : ∀ g ∈ s.sendBuf.bufList,
        g.buf < (s.storage ++ [x]).length ∧ 0 ≤ g.index ∧ s.sendBuf.curPos < g.size := by
      intro g hg
      obtain ⟨hlt, hrest⟩ := h.guards g hg
      rw [List.length_append, List.length_singleton]
      exact ⟨Nat.lt_succ_of_lt hlt, hrest⟩
    unfold Output.queue
    by_cases hq : 0 < (bytes.length : ℤ) - k
    · rw [if_pos hq]
      have hpos := hbehind (by omega)
      refine ⟨rfl, h.cursor, Or.inl hpos, ?_, ?_⟩
      · intro g hg
        rcases List.mem_append.mp hg with hg | hg
        · exact hguards g hg
        · rw [List.mem_singleton.mp hg]
          refine ⟨by simp [MBufferGuard.new], ?_, ?_⟩
          · show 0 ≤ (0 : ℤ) + k
            omega
          · show s.sendBuf.curPos < (bytes.length : ℤ) - k
            omega
      · have hnew : slice (storeOf (s.storage ++ [x]) s.storage.length) (0 + k + s.sendBuf.curPos)
            (bytes.length - k - s.sendBuf.curPos) = slice x k (bytes.length - k) := by
          rw [storeOf_append_self, hpos, zero_add, add_zero, sub_zero]
        show s.accepted ++ slice x 0 k ++ MReadBuf.pending _ (s.sendBuf.append _) = s.issued ++ bytes
        rw [MReadBuf.pending_append _ h.atFront, ← List.append_assoc, ← hdel, ← hnew]
        rfl
    · rw [if_neg hq]
      refine ⟨h.atFront, h.cursor, h.single, hguards, ?_⟩
      rw [slice_zero_size x k (by omega), List.append_nil] at hdel
      exact hdel

/-- A turn of `SendBuf` takes `bytes` from the front of what is pending. -/
theorem Intact.turned (h : Intact s) {r' : MReadBuf} {bytes : List UInt8} (hfront : r'.curIt = 0)
    (hcursor : 0 ≤ r'.curPos) (hsingle : r'.curPos = 0 ∨ r'.bufList.length ≤ 1)
    (hguards : ∀ g ∈ r'.bufList, g ∈ s.sendBuf.bufList ∧ r'.curPos < g.size)
    (hpend : s.pending = bytes ++ r'.pending (storeOf s.storage)) :
    Intact { s with sendBuf := r', accepted := s.accepted ++ bytes } where
  atFront := hfront
  cursor := hcursor
  single := hsingle
  guards := by
    intro g hg
    obtain ⟨hmem, hlt⟩ := hguards g hg
    obtain ⟨hbuf, hidx, -⟩ := h.guards g hmem
    exact ⟨hbuf, hidx, hlt⟩
  delivered := by
    rw [← h.delivered, hpend, ← List.append_assoc]
    rfl

/-- After an error that leaves the connection open, the queue is put back as it was. -/
theorem Intact.put_back (h : Intact s) (hl : s.sendBuf.bufList = g :: gs) {k : ℤ} (hk : k < 0) :
    Intact { s with
      sendBuf := (s.sendBuf.nexted g).backUp (g.size - s.sendBuf.curPos)
      accepted := s.accepted ++ slice (storeOf s.storage g.buf) (g.index + s.sendBuf.curPos) k } := by
  have hsize := (h.guards g (hl ▸ List.mem_cons_self)).2.2
  rw [MReadBuf.backUp_nexted hl (by omega), sub_sub_cancel]
  apply h.turned
  · rfl
  · exact h.cursor
  · exact h.single
  · intro g' hg'
    exact ⟨hg', (h.guards g' hg').2.2⟩
  · rw [slice_zero_size _ _ hk.le, List.nil_append]
    simp only [Output.pending, MReadBuf.pending, h.atFront]

/-- The guard stays at the front, alone, and the cursor moves over what was sent of it. -/
theorem Intact.sent_part (h : Intact s) (hl : s.sendBuf.bufList = [g]) {k : ℤ} (hk : 0 < k)
    (hpart : k < g.size - s.sendBuf.curPos) :
    Intact { s with
      sendBuf := (s.sendBuf.nexted g).backUp (g.size - s.sendBuf.curPos - k)
      accepted := s.accepted ++ slice (storeOf s.storage g.buf) (g.index + s.sendBuf.curPos) k } := by
  have hpos := h.cursor
  have hmem : g ∈ s.sendBuf.bufList := hl ▸ List.mem_cons_self
  have hidx := (h.guards g hmem).2.1
  have hpend : s.pending = _ := pending_cons (storeOf s.storage) h.atFront hl
  have hcur : g.size - (g.size - s.sendBuf.curPos - k) = s.sendBuf.curPos + k := by ring
  rw [MReadBuf.backUp_nexted hl (by omega), hcur]
  apply h.turned
  · rfl
  · show 0 ≤ s.sendBuf.curPos + k
    omega
  · right
    show s.sendBuf.bufList.length ≤ 1
    rw [hl, List.length_singleton]
  · intro g' hg'
    have hg : g' = g := by simpa [hl] using hg'
    rw [hg]
    exact ⟨hmem, by show s.sendBuf.curPos + k < g.size; omega⟩
  · have hsplit := @slice_append (storeOf s.storage g.buf) (g.index + s.sendBuf.curPos)
      (g.size - s.sendBuf.curPos) k (by omega) hk.le hpart.le
    rw [hpend, MReadBuf.pending_nil _ rfl, List.append_nil, ← hsplit]
    simp only [MReadBuf.pending, hl, List.drop_zero, List.flatMap_cons, List.flatMap_nil,
      List.append_nil]
    congr 2 <;> ring

/-- The guard is sent to its end and destroyed. -/
theorem Intact.sent_all (h : Intact s) (hl : s.sendBuf.bufList = g :: gs) :
    Intact { s with
      sendBuf := (s.sendBuf.nexted g).erase.2
      accepted := s.accepted ++ slice (storeOf s.storage g.buf) (g.index + s.sendBuf.curPos)
        (g.size - s.sendBuf.curPos) } := by
  have hpend : s.pending = _ := pending_cons (storeOf s.storage) h.atFront hl
  rw [MReadBuf.erase_nexted hl]
  apply h.turned
  · rfl
  · exact h.cursor
  · rcases h.single with hsingle | hsingle
    · exact Or.inl hsingle
    · rw [hl, List.length_cons] at hsingle
      exact Or.inr (by show gs.length ≤ 1; omega)
  · intro g' hg'
    have hmem : g' ∈ s.sendBuf.bufList := by
      rw [hl]
      exact List.mem_cons_of_mem _ hg'
    exact ⟨hmem, (h.guards g' hmem).2.2⟩
  · rw [hpend]
    simp only [MReadBuf.pending, h.atFront]

theorem intact_turn {o : SysResult} (h : Intact s) (hc : Orderly s (.turn o))
    (hret : o.ret ≤ s.requested (.turn o) ∨ s.sendBuf.next = none)
    (hopen : (s.turn o).closed = false) : Intact (s.turn o) := by
  unfold Output.turn at hopen ⊢
  cases hl : s.sendBuf.bufList with
  | nil =>
    have hnext : s.sendBuf.next = none := by
      rw [MReadBuf.next_eq_none, hl]
      exact Nat.zero_le _
    rw [hnext]
    exact ⟨h.atFront, h.cursor, h.single, h.guards, h.delivered⟩
  | cons g gs =>
    have hnext := MReadBuf.next_of_cons h.atFront hl
    have hreq : s.requested (.turn o) = g.size - s.sendBuf.curPos := by
      rw [Output.requested, hnext]
      rfl
    rw [hnext, or_iff_left (by simp), hreq] at hret
    rw [hnext] at hopen ⊢
    dsimp only at hopen ⊢
    unfold queuedSend at hopen ⊢
    by_cases hzero : o.ret = 0
    · simp [hzero] at hopen
    rw [if_neg hzero] at hopen ⊢
    by_cases hneg : o.ret < 0
    · rw [if_pos hneg] at hopen ⊢
      by_cases herr : o.errno = EAGAIN ||| EWOULDBLOCK ||| EINTR
      · rw [if_pos herr]
        exact h.put_back hl hneg
      · simp [herr] at hopen
    rw [if_neg hneg]
    by_cases hpart : o.ret < g.size - s.sendBuf.curPos
    · rw [if_pos hpart]
      have hlen := hc (by omega) (by rw [hreq]; exact hpart)
      have hone : gs = [] := by
        rw [hl, List.length_cons] at hlen
        exact List.length_eq_zero_iff.mp (by omega)
      exact h.sent_part (hone ▸ hl) (by omega) hpart
    · rw [if_neg hpart]
      have hall : o.ret = g.size - s.sendBuf.curPos := by omega
      rw [hall]
      exact h.sent_all hl

theorem intact_step {e : OutputEvent} (h : s.closed = false → Intact s) (hc : Orderly s e)
    (hstep : s.step e = some t) (hopen : t.closed = false) : Intact t := by
  unfold Output.step at hstep
  by_cases hcl : s.closed = true
  · simp [hcl] at hstep
  rw [if_neg hcl] at hstep
  have hs := h (by simpa using hcl)
  cases e with
  | respond bytes o =>
    dsimp only at hstep
    split_ifs at hstep with hcond
    cases hstep
    exact intact_respond hs hc hcond.2.2 hopen
  | sendBuf =>
    dsimp only at hstep
    split_ifs at hstep
    cases hstep
    exact ⟨hs.atFront, hs.cursor, hs.single, hs.guards, hs.delivered⟩
  | turn o =>
    dsimp only at hstep
    split_ifs at hstep with hcond
    cases hstep
    exact intact_turn hs hc hcond.2 hopen

/-- As long as the steps are orderly and the connection is not closed, the bytes accepted and
the bytes still queued are the responses issued, one after the other. -/
theorem output_delivered (s : Output) (h : Reachable Output.step Orderly .new s)
    (hopen : s.closed = false) :
    s.accepted <+: s.issued ∧ s.accepted ++ s.pending = s.issued := by
  have hinv : s.closed = false → Intact s := by
    apply Reachable.invariant (fun s : Output => s.closed = false → Intact s) _ _ h
    · intro _
      exact intact_new
    · intro s e t hs hc hstep hopen
      exact intact_step hs hc hstep hopen
  have hdel := (hinv hopen).delivered
  exact ⟨⟨s.pending, hdel⟩, hdel⟩

/-- A response of five bytes goes out in three pieces, and then one of two bytes at once. -/
theorem output_delivered_pieces : ∃ s,
    runIf Output.step Orderly .new [.respond [1, 2, 3, 4, 5] ⟨2, 0⟩, .sendBuf, .turn ⟨1, 0⟩,
      .turn ⟨2, 0⟩, .turn ⟨-1, EAGAIN⟩, .respond [6, 7] ⟨2, 0⟩] = some s ∧ s.closed = false ∧
      s.accepted <+: s.issued ∧ s.accepted ++ s.pending = s.issued := by
  obtain ⟨s, hs⟩ : ∃ s, runIf Output.step Orderly .new [.respond [1, 2, 3, 4, 5] ⟨2, 0⟩, .sendBuf,
      .turn ⟨1, 0⟩, .turn ⟨2, 0⟩, .turn ⟨-1, EAGAIN⟩, .respond [6, 7] ⟨2, 0⟩] = some s := ⟨_, rfl⟩
  have hopen : s.closed = false := by
    cases hs
    rfl
  exact ⟨s, hs, hopen, output_delivered s (.of_runIf .init hs) hopen⟩

/-- The second response overtakes the rest of the first one. -/
theorem response_overtakes_queue : ¬ ∀ s, Reachable Output.step (fun _ _ => True) .new s →
    s.closed = false → s.accepted <+: s.issued ∧ s.accepted ++ s.pending = s.issued := by
  intro h
  obtain ⟨s, hs⟩ : ∃ s, runIf Output.step (fun _ _ => True) .new
      [.respond [1, 2, 3] ⟨1, 0⟩, .respond [4] ⟨1, 0⟩] = some s := ⟨_, rfl⟩
  have hreach := h s (.of_runIf .init hs)
  cases hs
  have hpre := (hreach rfl).1
  revert hpre
  decide

end Delivery

end MgRaffle.MgServer
