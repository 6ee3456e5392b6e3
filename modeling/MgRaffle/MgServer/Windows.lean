import MgRaffle.MgServer.Footprint

namespace MgRaffle.MgServer
open Stepping

/-- What a caller of `Allocate` counts on: `Buf()` is the start of the storage, and `Remain()`
bytes fit from there. -/
structure MBuffer.AtStart (b : MBuffer) : Prop where
  nonneg : 0 ≤ b.curIndex
  start : b.curIndex = 0
  fits : b.curIndex + b.remain ≤ b.capacity

namespace Server

/-- The buffers that have been in use and that a step gives back, as they are then. -/
def returned (s : Server) (e : Event) : List MBuffer :=
  match e, s.ctrl with
  | .run, .doRequest _ held [] => (held.flatMap MRequest.guardBufs).map s.heap
  | .sent o, .doResponse _ _ _ out remain =>
    match directSend o with
    | some k => if 0 < remain - k then [] else [(s.heap out).consume k]
    | none => []
  | .sent o, .sendBuf _ c =>
    match (s.obj c).sendBuf.next with
    | some (data, r) =>
      match queuedSend r data.size o with
      | some (g, _) => g.toList.map fun g => s.heap g.buf
      | none => []
    | none => []
  | _, _ => []

/-- A buffer is given back only while its cursor is at 0. -/
def Rewinds (s : Server) (e : Event) : Prop := ∀ b ∈ s.returned e, b.curIndex = 0

instance (s : Server) (e : Event) : Decidable (s.Rewinds e) :=
  inferInstanceAs (Decidable (∀ b ∈ s.returned e, b.curIndex = 0))

/-- The counter of a call is what is left of the chunk, up to times that it has gone around; it can
be back at 0 together with the cursor only if the chunk was empty. -/
def Ahead (cursor length : ℤ) : Prop :=
  -2147483648 ≤ length ∧
    ∃ n : ℤ, 0 < n ∧ n ≤ 2147483647 ∧ 4294967296 ∣ cursor + length - n

/-- The cursor of a buffer moves only while it is out of the pool, and once a chunk is parsed it
stays off 0. -/
structure Windowed (s : Server) : Prop where
  fresh : ∀ b ∈ s.pool ++ s.ctrl.allocated, (s.heap b).curIndex = 0
  whole : ∀ b, (s.heap b).remain = (s.heap b).capacity
  size : ∀ b, (s.heap b).capacity = POOL_BUFFER_CAPACITY
  once : ∀ b, s.pool.count b + s.ctrl.hands.count b +
    (s.objs.flatMap MConnection.queueBufs).count b ≤ 1
  consumed : ∀ b ∈ s.objs.flatMap MConnection.parserBufs ++ s.ctrl.guardBufs,
    b ∈ s.ctrl.parsing ∨ (s.heap b).curIndex ≠ 0
  ahead : ∀ w loop length reqs, s.ctrl = .parse w loop length reqs →
    Ahead (s.heap w.buf).curIndex length

section Windows

variable {parse : List UInt8 → RpcHeader} {s t : Server} {e : Event}

theorem Windowed.atStart (h : s.Windowed) : ∀ b ∈ s.ctrl.allocated, (s.heap b).AtStart := by
  intro b hb
  have hzero := h.fresh b (List.mem_append_right _ hb)
  have hwhole := h.whole b
  exact ⟨hzero.ge, hzero, by omega⟩

theorem windowed_new : Windowed .new where
  fresh := fun _ _ => rfl
  whole := fun _ => rfl
  size := fun _ => rfl
  once := by
    intro x
    have hpool := List.nodup_iff_count_le_one.mp (List.nodup_range (n := BUFFER_POOL_SIZE)) x
    simpa [new] using hpool
  consumed := by
    intro b hb
    simp [new] at hb
  ahead := by
    intro w loop length reqs h
    cases h

/-- The thread goes on, and gives back buffers whose cursor is at 0. -/
theorem Windowed.giveBack (h : s.Windowed) {bs : List BufId} {ctrl : Ctrl}
    (hparsing : ctrl.parsing = [])
    (hfresh : ∀ b ∈ bs ++ ctrl.allocated, (s.heap b).curIndex = 0)
    (honce : ∀ x, bs.count x + ctrl.hands.count x ≤ s.ctrl.hands.count x)
    (hguards : ctrl.guardBufs ⊆ s.ctrl.guardBufs)
    (hparsed : ∀ b ∈ s.ctrl.parsing, (s.heap b).curIndex ≠ 0) :
    ((s.giveBack bs).goto ctrl).Windowed where
  fresh := by
    intro b hb
    rcases List.mem_append.mp hb with hb | hb
    · rcases List.mem_append.mp hb with hb | hb
      · exact h.fresh b (List.mem_append_left _ hb)
      · exact hfresh b (List.mem_append_left _ hb)
    · exact hfresh b (List.mem_append_right _ hb)
  whole := h.whole
  size := h.size
  once := by
    intro x
    have hold := h.once x
    have hx := honce x
    simp only [goto_pool, giveBack_pool, goto_ctrl, goto_objs, giveBack_objs, List.count_append]
    omega
  consumed := by
    intro b hb
    right
    have hmem : b ∈ s.objs.flatMap MConnection.parserBufs ++ s.ctrl.guardBufs := by
      rcases List.mem_append.mp hb with hb | hb
      · exact List.mem_append_left _ hb
      · exact List.mem_append_right _ (hguards hb)
    rcases h.consumed b hmem with hp | hpos
    · exact hparsed b hp
    · exact hpos
  ahead := by
    rintro w loop length reqs rfl
    cases hparsing

theorem Windowed.goto (h : s.Windowed) {ctrl : Ctrl} (hparsing : ctrl.parsing = [])
    (hfresh : ctrl.allocated = []) (honce : ∀ x, ctrl.hands.count x ≤ s.ctrl.hands.count x)
    (hguards : ctrl.guardBufs ⊆ s.ctrl.guardBufs)
    (hparsed : ∀ b ∈ s.ctrl.parsing, (s.heap b).curIndex ≠ 0) : (s.goto ctrl).Windowed := by
  have hmove : ((s.giveBack []).goto ctrl).Windowed := by
    apply h.giveBack hparsing _ _ hguards hparsed
    · rw [hfresh]
      simp
    · intro x
      simpa using honce x
  rwa [giveBack_nil] at hmove

theorem Windowed.closeConn (h : s.Windowed) (fd : ℤ) : (s.closeConn fd).Windowed :=
  ⟨h.fresh, h.whole, h.size, h.once, h.consumed, h.ahead⟩

/-- A buffer is written to, or its cursor moves off 0. -/
theorem Windowed.setBuf (h : s.Windowed) {b : BufId} {buf : MBuffer}
    (hfresh : b ∈ s.pool ++ s.ctrl.allocated → buf.curIndex = 0)
    (hsize : buf.remain = (s.heap b).remain ∧ buf.capacity = (s.heap b).capacity)
    (hkeep : b ∈ s.ctrl.parsing ∨ (s.heap b).curIndex ≠ 0 → buf.curIndex = (s.heap b).curIndex) :
    (s.setBuf b buf).Windowed where
  fresh := by
    intro x hx
    simp only [setBuf_heap]
    by_cases hxb : x = b
    · subst hxb
      rw [Function.update_self]
      exact hfresh hx
    · rw [Function.update_of_ne hxb]
      exact h.fresh x hx
  whole := by
    intro x
    simp only [setBuf_heap]
    by_cases hxb : x = b
    · subst hxb
      rw [Function.update_self, hsize.1, hsize.2]
      exact h.whole x
    · rw [Function.update_of_ne hxb]
      exact h.whole x
  size := by
    intro x
    simp only [setBuf_heap]
    by_cases hxb : x = b
    · subst hxb
      rw [Function.update_self, hsize.2]
      exact h.size x
    · rw [Function.update_of_ne hxb]
      exact h.size x
  once := h.once
  consumed := by
    intro x hx
    simp only [setBuf_heap]
    rcases h.consumed x hx with hp | hpos
    · exact Or.inl hp
    · right
      by_cases hxb : x = b
      · subst hxb
        rw [Function.update_self, hkeep (Or.inr hpos)]
        exact hpos
      · rwa [Function.update_of_ne hxb]
  ahead := by
    intro w loop length reqs hctrl
    have hahead := h.ahead w loop length reqs hctrl
    simp only [setBuf_heap]
    by_cases hxb : w.buf = b
    · subst hxb
      have hparsing : w.buf ∈ s.ctrl.parsing := by
        rw [setBuf_ctrl] at hctrl
        rw [hctrl]
        exact List.mem_singleton.mpr rfl
      rwa [Function.update_self, hkeep (Or.inl hparsing)]
    · rwa [Function.update_of_ne hxb]

theorem Windowed.write (h : s.Windowed) (b : BufId) (bytes : List UInt8) :
    (s.setBuf b ((s.heap b).write bytes)).Windowed :=
  h.setBuf (fun hb => h.fresh b hb) ⟨rfl, rfl⟩ fun _ => rfl

/-- The cursor of a buffer that nothing has been taken from is moved. -/
theorem Windowed.consume (h : s.Windowed) {b : BufId} {k : ℤ} (hstart : (s.heap b).curIndex = 0)
    (hparsing : s.ctrl.parsing = [])
    (hfresh : b ∈ s.pool ++ s.ctrl.allocated → (s.heap b).curIndex + k = 0) :
    (s.setBuf b ((s.heap b).consume k)).Windowed := by
  have hkeep : b ∈ s.ctrl.parsing ∨ (s.heap b).curIndex ≠ 0 →
      ((s.heap b).consume k).curIndex = (s.heap b).curIndex := by
    rintro (hp | hne)
    · rw [hparsing] at hp
      cases hp
    · exact absurd hstart hne
  exact h.setBuf hfresh ⟨rfl, rfl⟩ hkeep

/-- `Allocate` puts the buffer at the front of the pool into the hands of the thread. -/
theorem Windowed.allocate (h : s.Windowed) {b : BufId} {pool : List BufId} {ctrl : Ctrl}
    (hpool : s.pool = b :: pool) (hparsing : ctrl.parsing = []) (hold : s.ctrl.parsing = [])
    (hg : ctrl.guardBufs = s.ctrl.guardBufs) (ha : ctrl.allocated = [b])
    (hh : ctrl.hands = s.ctrl.hands ++ [b]) :
    ({ s with pool := pool, ctrl := ctrl } : Server).Windowed where
  fresh := by
    intro x hx
    simp only [ha] at hx
    apply h.fresh x
    rw [hpool]
    apply List.mem_append_left
    rcases List.mem_append.mp hx with hx | hx
    · exact List.mem_cons_of_mem _ hx
    · rw [List.mem_singleton.mp hx]
      exact List.mem_cons_self
  whole := h.whole
  size := h.size
  once := by
    intro x
    have hone := h.once x
    rw [hpool, ← List.singleton_append, List.count_append] at hone
    simp only [hh, List.count_append]
    omega
  consumed := by
    intro x hx
    simp only [hg] at hx
    rcases h.consumed x hx with hp | hpos
    · rw [hold] at hp
      cases hp
    · exact Or.inr hpos
  ahead := by
    rintro w loop length reqs rfl
    cases hparsing

theorem Windowed.addConn (h : s.Windowed) (fd : ℤ) : (s.addConn fd).Windowed := by
  have hparser : (s.addConn fd).objs.flatMap MConnection.parserBufs =
      s.objs.flatMap MConnection.parserBufs := by
    rw [addConn_objs, List.flatMap_append]
    exact List.append_nil _
  have hqueue : (s.addConn fd).objs.flatMap MConnection.queueBufs =
      s.objs.flatMap MConnection.queueBufs := by
    rw [addConn_objs, List.flatMap_append]
    exact List.append_nil _
  refine ⟨h.fresh, h.whole, h.size, ?_, ?_, h.ahead⟩
  · intro x
    rw [hqueue]
    exact h.once x
  · intro x hx
    rw [hparser] at hx
    exact h.consumed x hx

theorem Windowed.recv_zero (h : s.Windowed) {w : Receiving} (hctrl : s.ctrl = .recv w) :
    (s.heap w.buf).curIndex = 0 := by
  apply h.fresh
  rw [hctrl]
  exact List.mem_append_right _ (List.mem_singleton.mpr rfl)

/-- A buffer that `recv` has put nothing into is given back as it was. -/
theorem Windowed.unread (h : s.Windowed) {w : Receiving} {ctrl : Ctrl} (hctrl : s.ctrl = .recv w)
    (hnext : ctrl = .idle ∨ ctrl = .recvRun w.fd w.conn) :
    ((s.giveBack [w.buf]).goto ctrl).Windowed := by
  rcases hnext with rfl | rfl <;>
  · apply h.giveBack rfl _ (by simp [hctrl]) (by simp) (by simp [hctrl])
    intro b hb
    obtain rfl : b = w.buf := by simpa using hb
    exact h.recv_zero hctrl

/-- `recv` has filled the buffer, and parsing begins. -/
theorem Windowed.received (h : s.Windowed) {w : Receiving} {bytes : List UInt8}
    (hctrl : s.ctrl = .recv w) (hne : bytes ≠ [])
    (hlen : bytes.length ≤ (s.heap w.buf).remain) :
    (s.goto (.parse w .parseConnection bytes.length [])).Windowed where
  fresh := by
    intro x hx
    have hpool : x ∈ s.pool ++ [] := hx
    rw [List.append_nil] at hpool
    exact h.fresh x (List.mem_append_left _ hpool)
  whole := h.whole
  size := h.size
  once := by
    intro x
    have hone := h.once x
    rw [hctrl] at hone
    exact hone
  consumed := by
    intro x hx
    right
    have hobjs : x ∈ s.objs.flatMap MConnection.parserBufs ++ [] := hx
    rw [List.append_nil] at hobjs
    rcases h.consumed x (List.mem_append_left _ hobjs) with hp | hpos
    · rw [hctrl] at hp
      cases hp
    · exact hpos
  ahead := by
    intro w' loop length reqs heq
    cases heq
    have hzero := h.recv_zero hctrl
    have hpos := List.length_pos_iff.mpr hne
    have hsize : (s.heap w.buf).remain = 1024 := (h.whole w.buf).trans (h.size w.buf)
    refine ⟨by omega, bytes.length, by omega, by omega, ?_⟩
    show 4294967296 ∣ (s.heap w.buf).curIndex + (bytes.length : ℤ) - bytes.length
    omega

/-- A guard on another buffer than the chunk was there before the iteration. -/
theorem mem_guards_of_parsed {w : Receiving} {loop : Loop} {length : ℤ} {reqs : List MRequest}
    {p : ParseState} {x : BufId} (hctrl : s.ctrl = .parse w loop length reqs)
    (hp : (s.parsing w loop length reqs).step = some p)
    (hx : x ∈ (s.setObj w.conn p.conn).objs.flatMap MConnection.parserBufs ++
      p.reqs.flatMap MRequest.guardBufs) (hne : x ≠ w.buf) :
    x ∈ s.objs.flatMap MConnection.parserBufs ++ s.ctrl.guardBufs := by
  have hkept (hx : x ∈ p.conn.parserBufs ++ p.reqs.flatMap MRequest.guardBufs) :
      x ∈ s.objs.flatMap MConnection.parserBufs ++ s.ctrl.guardBufs := by
    have hold := (ParseState.mem_of_step hp hx).resolve_right hne
    rcases List.mem_append.mp hold with hx | hx
    · exact List.mem_append_left _ (s.mem_objs_of_mem_obj MConnection.parserBufs _ rfl hx)
    · apply List.mem_append_right
      rw [hctrl]
      exact hx
  rcases List.mem_append.mp hx with hx | hx
  · rcases s.mem_of_mem_setObj MConnection.parserBufs w.conn p.conn hx with hx | hx
    · exact List.mem_append_left _ hx
    · exact hkept (List.mem_append_left _ hx)
  · exact hkept (List.mem_append_right _ hx)

theorem Windowed.parsed (h : s.Windowed) {w : Receiving} {loop : Loop} {length : ℤ}
    {reqs : List MRequest} {p : ParseState} (hctrl : s.ctrl = .parse w loop length reqs)
    (hp : (s.parsing w loop length reqs).step = some p) : (s.parsed w p).Windowed where
  fresh := by
    intro x hx
    have hpool : x ∈ s.pool ++ [] := hx
    rw [List.append_nil] at hpool
    have hone := h.once x
    have hpos := List.count_pos_iff.mpr hpool
    rw [hctrl] at hone
    have hne : x ≠ w.buf := by
      rintro rfl
      simp at hone
      omega
    show (Function.update s.heap w.buf p.buf x).curIndex = 0
    rw [Function.update_of_ne hne]
    exact h.fresh x (List.mem_append_left _ hpool)
  whole := by
    intro x
    obtain ⟨-, -, -, hremain, hcapacity⟩ := ParseState.step_frame hp
    show (Function.update s.heap w.buf p.buf x).remain = (Function.update s.heap w.buf p.buf x).capacity
    by_cases hxb : x = w.buf
    · subst hxb
      rw [Function.update_self, hremain, hcapacity]
      exact h.whole _
    · rw [Function.update_of_ne hxb]
      exact h.whole x
  size := by
    intro x
    obtain ⟨-, -, -, -, hcapacity⟩ := ParseState.step_frame hp
    show (Function.update s.heap w.buf p.buf x).capacity = POOL_BUFFER_CAPACITY
    by_cases hxb : x = w.buf
    · subst hxb
      rw [Function.update_self, hcapacity]
      exact h.size _
    · rw [Function.update_of_ne hxb]
      exact h.size x
  once := by
    intro x
    obtain ⟨-, hsend, -⟩ := ParseState.step_frame hp
    have hone := h.once x
    have hset := s.count_setObj MConnection.queueBufs w.conn p.conn rfl x
    have hqueue : p.conn.queueBufs = (s.obj w.conn).queueBufs := by
      rw [MConnection.queueBufs, hsend]
      rfl
    have hhand : s.pool.count x + [w.buf].count x +
        (s.objs.flatMap MConnection.queueBufs).count x ≤ 1 := by
      rw [hctrl] at hone
      exact hone
    rw [hqueue] at hset
    show s.pool.count x + [w.buf].count x +
      ((s.setObj w.conn p.conn).objs.flatMap MConnection.queueBufs).count x ≤ 1
    omega
  consumed := by
    intro x hx
    by_cases hxb : x = w.buf
    · exact Or.inl (List.mem_singleton.mpr hxb)
    · right
      show (Function.update s.heap w.buf p.buf x).curIndex ≠ 0
      rw [Function.update_of_ne hxb]
      rcases h.consumed x (mem_guards_of_parsed hctrl hp hx hxb) with hparse | hpos
      · rw [hctrl] at hparse
        exact absurd (List.mem_singleton.mp hparse) hxb
      · exact hpos
  ahead := by
    intro w' loop' length' reqs' heq
    cases heq
    obtain ⟨-, -, hcursor, -⟩ := ParseState.step_frame hp
    obtain ⟨hint, n, hn, hmax, hdvd⟩ := h.ahead w loop length reqs hctrl
    have hcursor' : 4294967296 ∣ p.buf.curIndex + p.length -
        ((s.heap w.buf).curIndex + length) := hcursor
    refine ⟨ParseState.le_length_of_step hp hint, n, hn, hmax, ?_⟩
    show 4294967296 ∣ (Function.update s.heap w.buf p.buf w.buf).curIndex + p.length - n
    rw [Function.update_self]
    omega

theorem mem_parserBufs_setObj {c : ConnId} {conn : MConnection} {x : BufId}
    (hparser : conn.parserBufs = (s.obj c).parserBufs)
    (hx : x ∈ (s.setObj c conn).objs.flatMap MConnection.parserBufs) :
    x ∈ s.objs.flatMap MConnection.parserBufs := by
  rcases s.mem_of_mem_setObj MConnection.parserBufs c conn hx with hx | hx
  · exact hx
  · rw [hparser] at hx
    exact s.mem_objs_of_mem_obj MConnection.parserBufs _ rfl hx

/-- Nothing has been sent from the buffer of a response that is under way. -/
theorem Windowed.fresh_out (h : s.Windowed) {w : Receiving} {held todo : List MRequest} {out : BufId}
    {remain : ℤ} (hctrl : s.ctrl = .doResponse w held todo out remain) :
    (s.heap out).curIndex = 0 := by
  apply h.fresh
  rw [hctrl]
  exact List.mem_append_right _ (List.mem_singleton.mpr rfl)

/-- What is left of a response goes from the hands of the thread into the queue. -/
theorem Windowed.queued (h : s.Windowed) {w : Receiving} {held todo : List MRequest} {out : BufId}
    {remain : ℤ} {conn : MConnection} (hctrl : s.ctrl = .doResponse w held todo out remain)
    (hparser : conn.parserBufs = (s.obj w.conn).parserBufs)
    (hqueue : conn.queueBufs = (s.obj w.conn).queueBufs ++ [out]) :
    out ∉ s.pool ∧ ((s.setObj w.conn conn).goto (.doRequest w held todo)).Windowed := by
  have hone (x : BufId) : s.pool.count x + ([w.buf].count x + [out].count x) +
      (s.objs.flatMap MConnection.queueBufs).count x ≤ 1 := by
    have hx := h.once x
    rw [hctrl] at hx
    simp only [Ctrl.hands] at hx
    rwa [← List.singleton_append, List.count_append] at hx
  constructor
  · intro hout
    have hx := hone out
    have hpos := List.count_pos_iff.mpr hout
    rw [List.count_singleton_self] at hx
    omega
  · refine ⟨?_, h.whole, h.size, ?_, ?_, ?_⟩
    · intro x hx
      have hpool : x ∈ s.pool ++ [] := hx
      rw [List.append_nil] at hpool
      exact h.fresh x (List.mem_append_left _ hpool)
    · intro x
      have hx := hone x
      have hset := s.count_setObj MConnection.queueBufs w.conn conn rfl x
      rw [hqueue, List.count_append] at hset
      show s.pool.count x + [w.buf].count x +
        ((s.setObj w.conn conn).objs.flatMap MConnection.queueBufs).count x ≤ 1
      omega
    · intro x hx
      right
      have hold : x ∈ s.objs.flatMap MConnection.parserBufs ++ s.ctrl.guardBufs := by
        have hmem : x ∈ (s.setObj w.conn conn).objs.flatMap MConnection.parserBufs ++
          held.flatMap MRequest.guardBufs := hx
        rcases List.mem_append.mp hmem with hx | hx
        · exact List.mem_append_left _ (mem_parserBufs_setObj hparser hx)
        · apply List.mem_append_right
          rw [hctrl]
          exact hx
      rcases h.consumed x hold with hparse | hpos
      · rw [hctrl] at hparse
        cases hparse
      · exact hpos
    · intro w' loop length reqs heq
      cases heq

theorem Windowed.flushed (h : s.Windowed) {c : ConnId} {conn : MConnection}
    {bs : List BufId} (hparser : conn.parserBufs = (s.obj c).parserBufs)
    (hqueue : ∀ x, bs.count x + conn.queueBufs.count x = (s.obj c).queueBufs.count x)
    (hzero : ∀ b ∈ bs, (s.heap b).curIndex = 0) :
    ((s.setObj c conn).giveBack bs).Windowed := by
  refine ⟨?_, h.whole, h.size, ?_, ?_, h.ahead⟩
  · intro x hx
    have hpool : x ∈ (s.pool ++ bs) ++ s.ctrl.allocated := hx
    rcases List.mem_append.mp hpool with hx | hx
    · rcases List.mem_append.mp hx with hx | hx
      · exact h.fresh x (List.mem_append_left _ hx)
      · exact hzero x hx
    · exact h.fresh x (List.mem_append_right _ hx)
  · intro x
    have hone := h.once x
    have hset := s.count_setObj MConnection.queueBufs c conn rfl x
    have hx := hqueue x
    show (s.pool ++ bs).count x + s.ctrl.hands.count x +
      ((s.setObj c conn).objs.flatMap MConnection.queueBufs).count x ≤ 1
    rw [List.count_append]
    omega
  · intro x hx
    have hmem : x ∈ (s.setObj c conn).objs.flatMap MConnection.parserBufs ++ s.ctrl.guardBufs := hx
    apply h.consumed x
    rcases List.mem_append.mp hmem with hx | hx
    · exact List.mem_append_left _ (mem_parserBufs_setObj hparser hx)
    · exact List.mem_append_right _ hx

/-- Where `parse_connection` has returned, the cursor is off 0. -/
theorem Windowed.parsed_off (h : s.Windowed) {w : Receiving} {loop : Loop} {length : ℤ}
    {reqs : List MRequest} (hctrl : s.ctrl = .parse w loop length reqs)
    (hp : (s.parsing w loop length reqs).step = none) : (s.heap w.buf).curIndex ≠ 0 := by
  obtain ⟨hint, n, hn, hmax, hdvd⟩ := h.ahead w loop length reqs hctrl
  have hend := ParseState.length_of_step_eq_none hp
  have hlength : ¬ 0 < length := hend
  omega

/-- The requests of a call of `parse_connection` have no guard on a buffer with cursor 0. -/
theorem Windowed.held_eq_nil (h : s.Windowed) {w : Receiving} {held : List MRequest}
    (hctrl : s.ctrl = .doRequest w held [])
    (hc : ∀ b ∈ (held.flatMap MRequest.guardBufs).map s.heap, b.curIndex = 0) :
    held.flatMap MRequest.guardBufs = [] := by
  apply List.eq_nil_iff_forall_not_mem.mpr
  intro b hb
  have hzero := hc _ (List.mem_map_of_mem hb)
  rcases h.consumed b (by rw [hctrl]; exact List.mem_append_right _ hb) with hp | hpos
  · rw [hctrl] at hp
    cases hp
  · omega

theorem windowed_step (h : s.Windowed) (hc : s.Rewinds e) (hstep : s.step parse e = some t) :
    t.Windowed := by
  have hst := stepped_of_step hstep
  unfold Rewinds returned at hc
  cases hst with
  | accept hctrl hfd => exact h.addConn _
  | ignored => exact h
  | epollin hctrl hfd => exact h.goto rfl rfl (by simp) (by simp) (by simp [hctrl])
  | epollout hctrl hfd => exact h.goto rfl rfl (by simp) (by simp) (by simp [hctrl])
  | exhausted hctrl hpool =>
    exact (h.closeConn _).goto rfl rfl (by simp) (by simp) (by simp [hctrl])
  | allocate hctrl hpool =>
    exact h.allocate hpool rfl (by simp [hctrl]) (by simp [hctrl]) rfl (by simp [hctrl])
  | received hctrl hopen hne hlen =>
    exact (h.received hctrl hne hlen).write _ _
  | retry hctrl hnext => exact h.unread hctrl hnext
  | hangUp hctrl he => exact (h.unread hctrl (Or.inl rfl)).closeConn _
  | parse hctrl hp => exact h.parsed hctrl hp
  | parsed hctrl hp hnext =>
    have hpos := h.parsed_off hctrl hp
    rcases hnext with ⟨rfl, rfl⟩ | rfl
    · exact h.goto rfl rfl (by simp) (by simp) (by simpa [hctrl] using hpos)
    · exact h.goto rfl rfl (by simp [hctrl]) (by simp [hctrl]) (by simpa [hctrl] using hpos)
  | skip hctrl => exact h.goto rfl rfl (by simp [hctrl]) (by simp [hctrl]) (by simp [hctrl])
  | @respond w held todo _ bytes out pool hctrl hpool =>
    have hwin : Windowed
        { s with pool := pool, ctrl := .doResponse w held todo out bytes.length } :=
      h.allocate hpool rfl (by simp [hctrl]) (by simp [hctrl]) rfl (by simp [hctrl])
    exact hwin.write _ _
  | destroy hctrl =>
    rw [hctrl] at hc
    -- guards were on consumed chunks only, so under the condition there are none
    rw [h.held_eq_nil hctrl hc]
    exact h.giveBack rfl (by simp) (by simp) (by simp) (by simp [hctrl])
  | refused hctrl ho =>
    apply (h.closeConn _).goto rfl rfl _ (by simp [hctrl]) (by simp [hctrl])
    intro x
    simp only [closeConn_ctrl, hctrl, Ctrl.hands]
    exact (List.sublist_append_left [_] [_]).count_le x
  | @queued w held todo out remain k o hctrl ho hk =>
    have hqueue := MConnection.queueBufs_append (s.obj w.conn)
      (.new out ((s.heap out).consume k) (remain - k))
    obtain ⟨hout, hwin⟩ := h.queued hctrl (by rfl) hqueue
    apply hwin.consume (h.fresh_out hctrl) rfl
    intro hmem
    have hpool : out ∈ s.pool ++ [] := hmem
    rw [List.append_nil] at hpool
    exact absurd hpool hout
  | @answered w held todo out remain k o hctrl ho hk =>
    rw [hctrl] at hc
    simp only [ho, if_neg hk] at hc
    have hzero := hc _ (List.mem_singleton.mpr rfl)
    have hbuf := h.consume (h.fresh_out hctrl) (by simp [hctrl]) (fun _ => hzero)
    apply hbuf.giveBack rfl
    · intro b hb
      obtain rfl : b = out := by simpa using hb
      rw [setBuf_heap, Function.update_self]
      exact hzero
    · intro x
      simp only [setBuf_ctrl, hctrl, Ctrl.hands]
      rw [← List.count_append]
      exact ((List.Perm.swap w.buf out []).count_eq x).le
    · simp [hctrl]
    · simp [hctrl]
  | drained hctrl => exact h.goto rfl rfl (by simp) (by simp) (by simp [hctrl])
  | broken hctrl hnext ho =>
    exact (h.closeConn _).goto rfl rfl (by simp) (by simp) (by simp [hctrl])
  | flushed hctrl hnext ho =>
    rw [hctrl] at hc
    simp only [hnext, ho] at hc
    apply h.flushed _ (MConnection.count_queueBufs_flushed hnext ho)
    · intro b hb
      obtain ⟨g, hg, rfl⟩ := List.mem_map.mp hb
      exact hc _ (List.mem_map_of_mem hg)
    · rfl

/-- `recv` is interrupted again and again, and each time it takes another buffer. -/
theorem reachable_rotate {fd : ℤ} {c : ConnId} {bs rest : List BufId}
    (hs : Reachable (step parse) (fun _ _ => True) .new s) (hctrl : s.ctrl = .recvRun fd c)
    (hopen : s.Open fd c) (hpool : s.pool = bs ++ rest) :
    Reachable (step parse) (fun _ _ => True) .new { s with pool := rest ++ bs } := by
  induction bs generalizing s rest with
  | nil =>
    have hsame : ({ s with pool := rest ++ [] } : Server) = s := by
      rw [List.append_nil, ← List.nil_append rest, ← hpool]
    rwa [hsame]
  | cons b bs ih =>
    let taken : Server := { s with pool := bs ++ rest, ctrl := .recv ⟨fd, c, b⟩ }
    let back : Server := { s with pool := bs ++ rest ++ [b], ctrl := .recvRun fd c }
    -- one `Allocate` from the front, one `DeAllocate` to the back
    have htaken : s.step parse .run = some taken := by
      simp only [step, run, hctrl, hpool, List.cons_append]
      rfl
    have hback : taken.step parse (.recvFailed EINTR) = some back := by
      have hcond : taken.Open fd c ∨ EINTR = EBADF := Or.inl hopen
      show (if taken.Open fd c ∨ EINTR = EBADF then
        some (taken.recvFailed ⟨fd, c, b⟩ EINTR) else none) = some back
      rw [if_pos hcond]
      rfl
    have hreach : Reachable (step parse) (fun _ _ => True) .new back :=
      .step (.step hs trivial htaken) trivial hback
    have hrot := ih hreach rfl hopen (List.append_assoc bs rest [b])
    rw [List.append_assoc] at hrot
    have hsame : ({ s with pool := rest ++ b :: bs } : Server) =
        { back with pool := rest ++ ([b] ++ bs) } := by
      simp only [back, ← hctrl, List.singleton_append]
    rwa [hsame]

end Windows

end Server

end MgRaffle.MgServer
