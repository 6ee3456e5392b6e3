import MgRaffle.MgServer.Footprint

namespace MgRaffle.MgServer
open Stepping

namespace Server

/-- No buffer of the pool is in use, and what `Allocate` has returned has no other user. -/
structure Unaliased (s : Server) : Prop where
  once : s.pool.Nodup
  guards : ∀ b ∈ s.pool, b ∉ s.guardBufs
  hands : ∀ b ∈ s.pool, b ∉ s.ctrl.hands
  allocated : s.ctrl.hands.Nodup ∧ ∀ b ∈ s.ctrl.allocated, b ∉ s.guardBufs

/-- The buffer that a step builds a guard on as it parses. -/
def pinned (s : Server) (e : Event) : List BufId :=
  match e, s.ctrl with
  | .run, .parse w loop length reqs => (s.parsing w loop length reqs).pinned
  | _, _ => []

/-- A guard is built only on a buffer that no other guard is on. -/
def Unshared (s : Server) (e : Event) : Prop := ∀ b ∈ s.pinned e, b ∉ s.guardBufs

instance (s : Server) (e : Event) : Decidable (s.Unshared e) :=
  inferInstanceAs (Decidable (∀ b ∈ s.pinned e, b ∉ s.guardBufs))

/-- Every buffer is in the pool, under a guard or newly allocated, and is so only once. While it
is in the hands of the thread, which may have built a guard on it, it is not in the pool. -/
structure Owned (s : Server) : Prop where
  once : ∀ x, s.pool.count x + s.guardBufs.count x + s.ctrl.allocated.count x ≤ 1
  inHand : ∀ x, s.pool.count x + s.ctrl.hands.count x ≤ 1

section Ownership

variable {parse : List UInt8 → RpcHeader} {s t : Server} {e : Event} {x : BufId}

theorem Owned.unaliased (h : s.Owned) : s.Unaliased where
  once := by
    apply List.nodup_iff_count_le_one.mpr
    intro x
    have hx := h.once x
    omega
  guards := by
    intro b hb hg
    have hx := h.once b
    have hpool := List.count_pos_iff.mpr hb
    have hguard := List.count_pos_iff.mpr hg
    omega
  hands := by
    intro b hb hh
    have hx := h.inHand b
    have hpool := List.count_pos_iff.mpr hb
    have hhand := List.count_pos_iff.mpr hh
    omega
  allocated := by
    constructor
    · apply List.nodup_iff_count_le_one.mpr
      intro x
      have hx := h.inHand x
      omega
    · intro b hb hg
      have hx := h.once b
      have halloc := List.count_pos_iff.mpr hb
      have hguard := List.count_pos_iff.mpr hg
      omega

theorem owned_new : Owned .new where
  once := by
    intro x
    have hpool := List.nodup_iff_count_le_one.mp (List.nodup_range (n := BUFFER_POOL_SIZE)) x
    simpa [new, guardBufs, Ctrl.guardBufs, Ctrl.allocated] using hpool
  inHand := by
    intro x
    have hpool := List.nodup_iff_count_le_one.mp (List.nodup_range (n := BUFFER_POOL_SIZE)) x
    simpa [new, Ctrl.hands] using hpool

theorem count_guardBufs (s : Server) (x : BufId) : s.guardBufs.count x =
    (s.objs.flatMap MConnection.guardBufs).count x + s.ctrl.guardBufs.count x :=
  List.count_append

theorem count_cons_eq (b : BufId) (l : List BufId) (x : BufId) :
    (b :: l).count x = [b].count x + l.count x := by
  rw [← List.count_append, List.singleton_append]

/-- The thread goes on, and gives back what it is done with. -/
theorem Owned.giveBack (h : s.Owned) {bs : List BufId} {ctrl : Ctrl}
    (hg : ∀ x, bs.count x + ctrl.guardBufs.count x + ctrl.allocated.count x ≤
      s.ctrl.guardBufs.count x + s.ctrl.allocated.count x)
    (hh : ctrl.hands = [] ∨ ∀ x, bs.count x + ctrl.hands.count x ≤ s.ctrl.hands.count x) :
    ((s.giveBack bs).goto ctrl).Owned where
  once := by
    intro x
    have hone := h.once x
    have hgx := hg x
    rw [count_guardBufs] at hone ⊢
    simp only [goto_pool, goto_objs, goto_ctrl, giveBack_pool, giveBack_objs, List.count_append]
    omega
  inHand := by
    intro x
    have hone := h.once x
    have hhand := h.inHand x
    have hgx := hg x
    rw [count_guardBufs] at hone
    simp only [goto_pool, goto_ctrl, giveBack_pool, List.count_append]
    rcases hh with hnil | hh
    · rw [hnil, List.count_nil]
      omega
    · have hhx := hh x
      omega

theorem Owned.goto (h : s.Owned) {ctrl : Ctrl}
    (hg : ∀ x, ctrl.guardBufs.count x + ctrl.allocated.count x ≤
      s.ctrl.guardBufs.count x + s.ctrl.allocated.count x)
    (hh : ctrl.hands = [] ∨ ∀ x, ctrl.hands.count x ≤ s.ctrl.hands.count x) :
    (s.goto ctrl).Owned := by
  have hmove : ((s.giveBack []).goto ctrl).Owned := by
    apply h.giveBack
    · intro x
      simpa using hg x
    · simpa using hh
  rwa [giveBack_nil] at hmove

theorem Owned.closeConn (h : s.Owned) (fd : ℤ) : (s.closeConn fd).Owned := ⟨h.once, h.inHand⟩

theorem Owned.setBuf (h : s.Owned) (b : BufId) (buf : MBuffer) : (s.setBuf b buf).Owned :=
  ⟨h.once, h.inHand⟩

/-- `Allocate` puts the buffer at the front of the pool into the hands of the thread. -/
theorem Owned.allocate (h : s.Owned) {b : BufId} {pool : List BufId} {ctrl : Ctrl}
    (hpool : s.pool = b :: pool) (hg : ctrl.guardBufs = s.ctrl.guardBufs)
    (ha : ctrl.allocated = [b]) (hh : ctrl.hands = s.ctrl.hands ++ [b]) :
    ({ s with pool := pool, ctrl := ctrl } : Server).Owned where
  once := by
    intro x
    have hone := h.once x
    rw [count_guardBufs, hpool, count_cons_eq] at hone
    rw [count_guardBufs]
    simp only [hg, ha]
    omega
  inHand := by
    intro x
    have hhand := h.inHand x
    rw [hpool, count_cons_eq] at hhand
    simp only [hh, List.count_append]
    omega

theorem Owned.addConn (h : s.Owned) (fd : ℤ) : (s.addConn fd).Owned where
  once := by
    intro x
    have hone := h.once x
    rw [count_guardBufs] at hone ⊢
    rw [addConn_objs, List.flatMap_append, List.count_append]
    exact hone
  inHand := h.inHand

theorem Owned.parsed (h : s.Owned) {w : Receiving} {loop : Loop} {length : ℤ}
    {reqs : List MRequest} {p : ParseState} (hctrl : s.ctrl = .parse w loop length reqs)
    (hc : ∀ b ∈ (s.parsing w loop length reqs).pinned, b ∉ s.guardBufs)
    (hp : (s.parsing w loop length reqs).step = some p) : (s.parsed w p).Owned where
  once := by
    intro x
    have hold := h.once x
    have hhand := h.inHand x
    have hset := s.count_setObj MConnection.guardBufs w.conn p.conn rfl x
    have hstep := ParseState.count_step (x := x) hp
    have hpin := (ParseState.sublist_pinned (s.parsing w loop length reqs)).count_le x
    -- a new guard finds no other on its buffer, by the condition on the step
    have hnew : (s.parsing w loop length reqs).pinned.count x = 0 ∨ s.guardBufs.count x = 0 := by
      by_cases hx : x ∈ (s.parsing w loop length reqs).pinned
      · exact Or.inr (List.count_eq_zero.mpr (hc x hx))
      · exact Or.inl (List.count_eq_zero.mpr hx)
    rw [count_guardBufs, hctrl] at hold hnew
    rw [hctrl] at hhand
    simp only [ParseState.guardBufs, parsing, List.count_append] at hstep hpin hnew
    rw [count_guardBufs]
    show s.pool.count x + (((s.setObj w.conn p.conn).objs.flatMap _).count x +
      (p.reqs.flatMap MRequest.guardBufs).count x) + 0 ≤ 1
    simp only [Ctrl.guardBufs, Ctrl.hands] at hold hhand hnew
    omega
  inHand := by
    intro x
    have hhand := h.inHand x
    rw [hctrl] at hhand
    exact hhand

/-- What is left of a response goes from the hands of the thread into the queue. -/
theorem Owned.queued (h : s.Owned) {w : Receiving} {held todo : List MRequest} {out : BufId}
    {remain : ℤ} {conn : MConnection} (hctrl : s.ctrl = .doResponse w held todo out remain)
    (hconn : conn.guardBufs = (s.obj w.conn).guardBufs ++ [out]) :
    ((s.setObj w.conn conn).goto (.doRequest w held todo)).Owned where
  once := by
    intro x
    have hone := h.once x
    have hset := s.count_setObj MConnection.guardBufs w.conn conn rfl x
    rw [hconn, List.count_append] at hset
    rw [count_guardBufs, hctrl] at hone
    simp only [Ctrl.guardBufs, Ctrl.allocated] at hone
    rw [count_guardBufs]
    show s.pool.count x + (((s.setObj w.conn conn).objs.flatMap MConnection.guardBufs).count x +
      (held.flatMap MRequest.guardBufs).count x) + 0 ≤ 1
    omega
  inHand := by
    intro x
    have hhand := h.inHand x
    rw [hctrl] at hhand
    simp only [Ctrl.hands] at hhand
    rw [count_cons_eq] at hhand
    show s.pool.count x + [w.buf].count x ≤ 1
    omega

theorem Owned.flushed (h : s.Owned) {fd : ℤ} {c : ConnId} {conn : MConnection} {bs : List BufId}
    (hctrl : s.ctrl = .sendBuf fd c)
    (hconn : ∀ x, bs.count x + conn.guardBufs.count x = (s.obj c).guardBufs.count x) :
    ((s.setObj c conn).giveBack bs).Owned := by
  have hone (x : BufId) : (s.pool ++ bs).count x +
      ((s.setObj c conn).objs.flatMap MConnection.guardBufs).count x ≤ 1 := by
    have hold := h.once x
    have hset := s.count_setObj MConnection.guardBufs c conn rfl x
    have hx := hconn x
    rw [count_guardBufs] at hold
    rw [List.count_append]
    omega
  constructor
  · intro x
    rw [count_guardBufs]
    simp only [giveBack_ctrl, setObj_ctrl, hctrl, Ctrl.guardBufs, Ctrl.allocated, List.count_nil]
    exact hone x
  · intro x
    have hx := hone x
    simp only [giveBack_ctrl, setObj_ctrl, hctrl, Ctrl.hands, List.count_nil]
    show (s.pool ++ bs).count x + 0 ≤ 1
    omega

theorem owned_step (h : s.Owned) (hc : s.Unshared e) (hstep : s.step parse e = some t) :
    t.Owned := by
  have hst := stepped_of_step hstep
  cases hst with
  | accept hctrl hfd => exact h.addConn _
  | ignored => exact h
  | epollin hctrl hfd => exact h.goto (by simp) (by simp)
  | epollout hctrl hfd => exact h.goto (by simp) (by simp)
  | exhausted hctrl hpool => exact (h.closeConn _).goto (by simp) (by simp)
  | allocate hctrl hpool => exact h.allocate hpool (by simp [hctrl]) rfl (by simp [hctrl])
  | received hctrl hopen hne => exact (h.setBuf _ _).goto (by simp) (by simp [hctrl])
  | retry hctrl hnext =>
    rcases hnext with rfl | rfl
    · exact h.giveBack (by simp [hctrl]) (by simp)
    · exact h.giveBack (by simp [hctrl]) (by simp)
  | @hangUp _ w hctrl he =>
    have hback : ((s.giveBack [w.buf]).goto .idle).Owned :=
      h.giveBack (by simp [hctrl]) (by simp)
    exact hback.closeConn _
  | parse hctrl hp =>
    apply h.parsed hctrl _ hp
    unfold Unshared pinned at hc
    rw [hctrl] at hc
    exact hc
  | parsed hctrl hp hnext =>
    rcases hnext with ⟨rfl, rfl⟩ | rfl
    · exact h.goto (by simp) (by simp)
    · exact h.goto (by simp [hctrl]) (by simp [hctrl])
  | skip hctrl => exact h.goto (by simp [hctrl]) (by simp [hctrl])
  | @respond w held todo _ bytes out pool hctrl hpool =>
    have hown : Owned { s with pool := pool, ctrl := .doResponse w held todo out bytes.length } :=
      h.allocate hpool (by simp [hctrl]) rfl (by simp [hctrl])
    exact hown.setBuf _ _
  -- what the destroyed guards were on is counted once, and so goes back once
  | destroy hctrl => exact h.giveBack (by simp [hctrl]) (by simp)
  | refused hctrl ho =>
    apply (h.closeConn _).goto
    · simp [hctrl]
    · right
      intro x
      simp only [Ctrl.hands, closeConn_ctrl, hctrl]
      rw [count_cons_eq _ [_]]
      omega
  | queued hctrl ho hk => exact (h.setBuf _ _).queued hctrl (MConnection.guardBufs_append _ _)
  | answered hctrl ho hk =>
    apply (h.setBuf _ _).giveBack
    · intro x
      simp only [Ctrl.guardBufs, Ctrl.allocated, setBuf_ctrl, hctrl, List.count_nil]
      omega
    · right
      intro x
      simp only [Ctrl.hands, setBuf_ctrl, hctrl]
      rw [count_cons_eq _ [_]]
      omega
  | drained hctrl => exact h.goto (by simp) (by simp)
  | broken hctrl hnext ho => exact (h.closeConn _).goto (by simp) (by simp)
  | flushed hctrl hnext ho => exact h.flushed hctrl (MConnection.count_guardBufs_flushed hnext ho)

/-- As long as no buffer comes to be under two guards, nothing in the pool is in use. -/
theorem pool_unaliased (parse : List UInt8 → RpcHeader) (s : Server)
    (h : Reachable (step parse) Unshared .new s) : s.Unaliased := by
  apply Owned.unaliased
  apply Reachable.invariant Owned owned_new _ h
  intro s e t hs hc hstep
  exact owned_step hs hc hstep

/-- The message of `client.cpp` comes in two chunks, the second of which is its body. -/
def cutEvents : List Event :=
  [.accept 7, .epollin 7, .run, .received (clientMessage.encode.take 21), .run, .run, .run, .run,
    .run, .run, .run, .received (clientMessage.encode.drop 21), .run, .run, .run, .run,
    .sent ⟨28, 0⟩, .run, .run, .recvFailed EAGAIN]

theorem pool_unaliased_cut :
    ∃ s, runIf (step clientParse) Unshared .new cutEvents = some s ∧ s.Unaliased := by
  have hrun : (runIf (step clientParse) Unshared .new cutEvents).isSome := by decide +kernel
  obtain ⟨s, hs⟩ := Option.isSome_iff_exists.mp hrun
  exact ⟨s, hs, pool_unaliased clientParse s (.of_runIf .init hs)⟩

/-- It comes in one chunk: its header and its body each give the buffer of the chunk back. -/
theorem chunk_returned_twice : ¬ ∀ s, Reachable (step clientParse) (fun _ _ => True) .new s →
    s.Unaliased := by
  intro h
  have hrun : (runIf (step clientParse) (fun _ _ => True) .new wholeEvents).map
      (fun s => s.pool.count 0) = some 2 := by decide +kernel
  obtain ⟨s, hs, hcount⟩ := Option.map_eq_some_iff.mp hrun
  have hone := List.nodup_iff_count_le_one.mp (h s (.of_runIf .init hs)).once 0
  rw [hcount] at hone
  omega

end Ownership

end Server

end MgRaffle.MgServer
