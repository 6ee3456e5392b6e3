import MgRaffle.MgServer.Footprint
import MgRaffle.MgServer.ParserSafety

namespace MgRaffle.MgServer
open Collector Stepping

/-- A call of `parse_connection` as values: what the connection remembers, the bytes that are left
of the chunk, and what has been cut from it. No buffer occurs in it. -/
@[ext] structure ParseView where
  loop : Loop
  progress : Progress
  rest : List UInt8
  reqs : List Content
  deriving Repr, DecidableEq

namespace ParseView

def counter (v : ParseView) : ℤ :=
  match v.progress.parseType with
  | .magic => v.progress.magicRemain
  | .header => v.progress.headerRemain
  | .rpcHeader | .rpcContent => v.progress.rpcRemain.getD 0

def remain (v : ParseView) : ℤ := min v.counter v.rest.length

/-- The bytes that the coming iteration takes. -/
def taken (v : ParseView) : List UInt8 := v.rest.take v.remain.toNat

def take (v : ParseView) (p : Progress) : ParseView :=
  { v with progress := p, rest := v.rest.drop v.remain.toNat }

def magicCase (v : ParseView) : ParseView :=
  let p := v.progress
  let left := p.magicRemain - v.remain
  v.take { p with
    magic := memcpy p.magic (4 - p.magicRemain) v.taken
    magicRemain := left
    parseType := if 0 < left then p.parseType else .header }

def headerCase (v : ParseView) : ParseView :=
  let p := v.progress
  let left := p.headerRemain - v.remain
  let lengths := memcpy p.request.lengthHeader (MLengthHeader.size - p.headerRemain) v.taken
  v.take { p with
    headerRemain := left
    request := { p.request with lengthHeader := lengths }
    rpcRemain := if 0 < left then p.rpcRemain else some (MLengthHeader.rpcHeaderLength lengths)
    parseType := if 0 < left then p.parseType else .rpcHeader }

def rpcHeaderCase (v : ParseView) : ParseView :=
  let p := v.progress
  let left := p.rpcRemain.getD 0 - v.remain
  v.take { p with
    request := { p.request with header := p.request.header ++ v.taken }
    rpcRemain :=
      if 0 < left then some left else some (MLengthHeader.rpcBodyLength p.request.lengthHeader)
    parseType := if 0 < left then p.parseType else .rpcContent }

def rpcContentCase (v : ParseView) : ParseView :=
  let p := v.progress
  let left := p.rpcRemain.getD 0 - v.remain
  let request := { p.request with body := p.request.body ++ v.taken }
  if 0 < left then v.take { p with request := request, rpcRemain := some left }
  else
    { v.take ⟨.magic, p.magicRemain, p.magic, MLengthHeader.size, some 0, ⟨[], [], []⟩⟩ with
      loop := .parseConnection
      reqs := v.reqs ++ [request] }

/-- One turn of the inner or of the outer loop, on values. -/
def step (v : ParseView) : Option ParseView :=
  match v.loop with
  | .parseConnection =>
    if v.rest = [] then none
    else
      match v.progress.parseType with
      | .magic => some v.magicCase
      | _ => some { v with loop := .splitMessage }
  | .splitMessage =>
    if v.rest = [] then some { v with loop := .parseConnection }
    else
      match v.progress.parseType with
      | .header => some v.headerCase
      | .rpcHeader => some v.rpcHeaderCase
      | .rpcContent => some v.rpcContentCase
      | .magic => some v

end ParseView

/-- Nothing has been read from the read buffer, and its size is that of the bytes it delivers. -/
structure MReadBuf.Unread (store : BufId → List UInt8) (r : MReadBuf) : Prop where
  front : r.curIt = 0
  pos : r.curPos = 0
  total : r.totalBytes = (r.pending store).length

structure MRequest.Unread (store : BufId → List UInt8) (r : MRequest) : Prop where
  header : r.rpcHeaderBuf.Unread store
  body : r.rpcBodyBuf.Unread store

/-- The values that stand for a call. -/
def ParseState.view (store : BufId → List UInt8) (m : ParseState) : ParseView where
  loop := m.loop
  progress := m.conn.progress store
  rest := slice (store m.id) m.buf.curIndex m.length
  reqs := m.reqs.map (MRequest.content store)

/-- The chunk that is left lies inside its buffer, and the requests can be read. -/
structure ParseState.Ready (store : BufId → List UInt8) (m : ParseState) : Prop where
  storage : m.buf.storage = store m.id
  cursor : 0 ≤ m.buf.curIndex
  count : 0 ≤ m.length
  inside : m.buf.curIndex + m.length ≤ (store m.id).length
  request : m.conn.theParser.req.Unread store
  reqs : ∀ r ∈ m.reqs, r.Unread store

section Reading

variable {store store' : BufId → List UInt8} {r : MReadBuf} {g : MBufferGuard} {as : List UInt8}

theorem unread_new : MReadBuf.new.Unread store := ⟨rfl, rfl, rfl⟩

theorem Holds.unread (h : Holds store r as) : r.Unread store :=
  ⟨h.atStart.1, h.atStart.2, by rw [h.total, h.bytes]⟩

theorem MReadBuf.Unread.bounded_eq (h : r.Unread store) : r.bounded store = r.pending store := by
  rw [MReadBuf.bounded, h.total, Int.toNat_natCast, List.take_length]

theorem MReadBuf.Unread.pending_append (h : r.Unread store) :
    (r.append g).pending store = r.pending store ++ slice (store g.buf) g.index g.size := by
  rw [MReadBuf.pending_append store h.front, h.pos, add_zero, sub_zero]

theorem MReadBuf.Unread.append (h : r.Unread store)
    (hsize : (slice (store g.buf) g.index g.size).length = g.size) : (r.append g).Unread store where
  front := rfl
  pos := h.pos
  total := by
    rw [h.pending_append, List.length_append, MReadBuf.append, h.total]
    push_cast
    rw [hsize]

theorem length_slice {storage : List UInt8} {index size : ℤ} (hi : 0 ≤ index) (hs : 0 ≤ size)
    (h : index + size ≤ storage.length) : ((slice storage index size).length : ℤ) = size := by
  rw [slice, List.length_take, List.length_drop]
  omega

/-- Only the buffers under the guards matter. -/
theorem MReadBuf.Unread.congr (h : r.Unread store)
    (hs : ∀ g ∈ r.bufList, store g.buf = store' g.buf) : r.Unread store' :=
  ⟨h.front, h.pos, by rw [h.total, MgServer.pending_congr hs]⟩

end Reading

section Cases

variable {store : BufId → List UInt8} {m n : ParseState}

@[simp] theorem ParseState.view_progress (m : ParseState) :
    (m.view store).progress = m.conn.progress store := rfl

theorem ParseState.Ready.rest_length (h : m.Ready store) :
    ((m.view store).rest.length : ℤ) = m.length :=
  length_slice h.cursor h.count h.inside

theorem ParseState.Ready.remain_eq (h : m.Ready store) : (m.view store).remain = m.remain := by
  rw [ParseView.remain, h.rest_length, m.remain_eq_min]
  rfl

/-- The iteration takes what stands at the cursor. -/
theorem ParseState.Ready.taken_eq (h : m.Ready store) :
    (m.view store).taken = slice (store m.id) m.buf.curIndex m.remain := by
  have hle := m.remain_le
  rw [ParseView.taken, h.remain_eq]
  simp only [ParseState.view, slice, List.take_take]
  congr 1
  omega

theorem ParseState.Ready.read_eq (h : m.Ready store) :
    m.buf.read m.remain = (m.view store).taken := by
  rw [h.taken_eq, MBuffer.read, h.storage]

/-- What the iteration leaves of the chunk. -/
theorem ParseState.Ready.left_eq (h : m.Ready store) (hr : 0 ≤ m.remain) :
    slice (store m.id) (m.buf.curIndex + m.remain) (m.length - m.remain) =
      (m.view store).rest.drop (m.view store).remain.toNat := by
  have hc := h.cursor
  have hle := m.remain_le
  have hidx : (m.buf.curIndex + m.remain).toNat = m.buf.curIndex.toNat + m.remain.toNat := by omega
  have hsize : (m.length - m.remain).toNat = m.length.toNat - m.remain.toNat := by omega
  rw [h.remain_eq]
  simp only [ParseState.view, slice, List.drop_take, List.drop_drop, hidx, hsize]

/-- A guard on what the iteration takes. -/
def ParseState.guard (m : ParseState) : MBufferGuard := .new m.id m.buf m.remain

theorem ParseState.Ready.guard_bytes (h : m.Ready store) :
    slice (store m.guard.buf) m.guard.index m.guard.size = (m.view store).taken :=
  h.taken_eq.symm

theorem ParseState.Ready.append (h : m.Ready store) (hr : 0 ≤ m.remain) {r : MReadBuf}
    (hu : r.Unread store) : (r.append m.guard).Unread store := by
  have hi : m.buf.curIndex + m.length ≤ (store m.guard.buf).length := h.inside
  have hle := m.remain_le
  apply hu.append
  exact length_slice h.cursor hr (show m.buf.curIndex + m.remain ≤ _ by omega)

theorem ParseState.Ready.pending_append (h : m.Ready store) {r : MReadBuf} (hu : r.Unread store) :
    (r.append m.guard).pending store = r.pending store ++ (m.view store).taken := by
  rw [hu.pending_append, h.guard_bytes]

/-- The iteration moves the cursor, and the connection goes on. -/
theorem ParseState.Ready.take (h : m.Ready store) (hr : 0 ≤ m.remain) {conn : MConnection}
    {loop : Loop} {reqs : List MRequest} (hreq : conn.theParser.req.Unread store)
    (hreqs : ∀ r ∈ reqs, r.Unread store) :
    ({ m.take m.remain with conn := conn, loop := loop, reqs := reqs } : ParseState).Ready store := by
  have hc := h.cursor
  have hi := h.inside
  have hle := m.remain_le
  refine ⟨h.storage, ?_, ?_, ?_, hreq, hreqs⟩ <;>
    simp only [ParseState.take, MBuffer.consume, subRemain_of_nonneg hr] <;> omega

theorem ParseState.Ready.view_take (h : m.Ready store) (hr : 0 ≤ m.remain) {conn : MConnection}
    {loop : Loop} {reqs : List MRequest} :
    ({ m.take m.remain with conn := conn, loop := loop, reqs := reqs } : ParseState).view store =
      { (m.view store).take (conn.progress store) with
        loop := loop, reqs := reqs.map (MRequest.content store) } := by
  ext1
  · rfl
  · rfl
  · have hleft := h.left_eq hr
    rwa [← subRemain_of_nonneg hr] at hleft
  · rfl

theorem view_magicCase (h : m.Ready store) (hr : 0 ≤ m.remain) :
    m.magicCase.Ready store ∧ m.magicCase.view store = (m.view store).magicCase := by
  constructor
  · apply h.take hr _ h.reqs
    split_ifs <;> exact h.request
  · apply (h.view_take hr).trans
    simp only [ParseView.magicCase, h.remain_eq, h.read_eq, ParseState.view_progress,
      MConnection.progress]
    split_ifs <;> rfl

theorem view_headerCase (h : m.Ready store) (hr : 0 ≤ m.remain) :
    m.headerCase.Ready store ∧ m.headerCase.view store = (m.view store).headerCase := by
  constructor
  · apply h.take hr _ h.reqs
    split_ifs <;> exact ⟨h.request.header, h.request.body⟩
  · apply (h.view_take hr).trans
    simp only [ParseView.headerCase, h.remain_eq, h.read_eq, ParseState.view_progress,
      MConnection.progress]
    split_ifs <;> rfl

theorem view_rpcHeaderCase (h : m.Ready store) (hr : 0 ≤ m.remain) :
    m.rpcHeaderCase.Ready store ∧ m.rpcHeaderCase.view store = (m.view store).rpcHeaderCase := by
  have hbuf := h.append hr h.request.header
  have hbytes := h.pending_append h.request.header
  constructor
  · apply h.take hr _ h.reqs
    split_ifs <;> exact ⟨hbuf, h.request.body⟩
  · apply (h.view_take hr).trans
    simp only [ParseView.rpcHeaderCase, h.remain_eq, ParseState.view_progress, MConnection.progress,
      MRequest.content, ← hbytes]
    split_ifs <;> rfl

theorem view_rpcContentCase (h : m.Ready store) (hr : 0 ≤ m.remain) :
    m.rpcContentCase.Ready store ∧ m.rpcContentCase.view store = (m.view store).rpcContentCase := by
  have hbuf := h.append hr h.request.body
  have hbytes := h.pending_append h.request.body
  simp only [ParseState.rpcContentCase, ParseView.rpcContentCase, h.remain_eq,
    ParseState.view_progress, MConnection.progress, MRequest.content, ← hbytes]
  split_ifs
  · exact ⟨h.take hr ⟨h.request.header, hbuf⟩ h.reqs, h.view_take hr⟩
  · -- the request is complete, and the parser goes on with an empty one
    constructor
    · apply h.take hr ⟨unread_new, unread_new⟩
      intro r hmem
      rcases List.mem_append.mp hmem with hmem | hmem
      · exact h.reqs r hmem
      · rw [List.mem_singleton.mp hmem]
        exact ⟨h.request.header, hbuf⟩
    · apply (h.view_take hr).trans
      rw [List.map_append]
      rfl

theorem ParseState.Ready.rest_eq_nil (h : m.Ready store) :
    (m.view store).rest = [] ↔ ¬ 0 < m.length := by
  have hlen := h.rest_length
  have hc := h.count
  rw [← List.length_eq_zero_iff]
  omega

/-- A turn of the loops on buffers is one on values, as long as it takes no negative number of
bytes. -/
theorem view_step (h : m.Ready store) (hr : 0 < m.length → 0 ≤ m.remain) (hstep : m.step = some n) :
    n.Ready store ∧ (m.view store).step = some (n.view store) := by
  have hnil := h.rest_eq_nil
  have hrest (hpos : 0 < m.length) : (m.view store).rest ≠ [] := mt hnil.mp (not_not.mpr hpos)
  have hloop : (m.view store).loop = m.loop := rfl
  have htype : (m.view store).progress.parseType = m.conn.parseType := rfl
  unfold ParseView.step
  -- each case moves a cursor on the buffers, and takes from the list on the values
  cases ParseState.stepped_of_step hstep with
  | magic hl hpos ht =>
    obtain ⟨hready, hview⟩ := view_magicCase h (hr hpos)
    simp only [hloop, hl, htype, ht, if_neg (hrest hpos), hview]
    exact ⟨hready, trivial⟩
  | enter hl hpos ht =>
    have hcase : (m.view store).step = some (m.enter.view store) := by
      unfold ParseView.step
      simp only [hloop, hl, htype, if_neg (hrest hpos)]
      cases hp : m.conn.parseType with
      | magic => exact absurd hp ht
      | header => rfl
      | rpcHeader => rfl
      | rpcContent => rfl
    exact ⟨⟨h.storage, h.cursor, h.count, h.inside, h.request, h.reqs⟩, hcase⟩
  | header hl hpos ht =>
    obtain ⟨hready, hview⟩ := view_headerCase h (hr hpos)
    simp only [hloop, hl, htype, ht, if_neg (hrest hpos), hview]
    exact ⟨hready, trivial⟩
  | rpcHeader hl hpos ht =>
    obtain ⟨hready, hview⟩ := view_rpcHeaderCase h (hr hpos)
    simp only [hloop, hl, htype, ht, if_neg (hrest hpos), hview]
    exact ⟨hready, trivial⟩
  | rpcContent hl hpos ht =>
    obtain ⟨hready, hview⟩ := view_rpcContentCase h (hr hpos)
    simp only [hloop, hl, htype, ht, if_neg (hrest hpos), hview]
    exact ⟨hready, trivial⟩
  | spin hl hpos ht =>
    simp only [hloop, hl, htype, ht, if_neg (hrest hpos)]
    exact ⟨h, trivial⟩
  | leave hl hend =>
    simp only [hloop, hl, if_pos (hnil.mpr hend)]
    exact ⟨⟨h.storage, h.cursor, h.count, h.inside, h.request, h.reqs⟩, rfl⟩

end Cases

section Following

variable {store : BufId → List UInt8} {base : BufId → ℕ} {m : ParseState} {v w : ParseView}
  {s t : State Part UInt8} {rest stream : List UInt8} {fs o : List Frame} {c : MConnection}
  {l : Loop}

theorem step_view_of_none (h : m.Ready store) (hstep : m.step = none) :
    (m.view store).step = none := by
  have hend := h.rest_eq_nil.mpr (ParseState.length_of_step_eq_none hstep)
  have hloop : (m.view store).loop = .parseConnection := by
    show m.loop = _
    cases hl : m.loop with
    | parseConnection => rfl
    | splitMessage =>
      simp only [ParseState.step, hl, if_neg (ParseState.length_of_step_eq_none hstep)] at hstep
      cases hstep
  simp only [ParseView.step, hloop, if_pos hend]

theorem InPart.unread (h : InPart store l c s) : c.theParser.req.Unread store := by
  unfold InPart at h
  cases hp : s.part with
  | magic =>
    rw [hp] at h
    rw [h.2.2.2.2.1]
    exact ⟨unread_new, unread_new⟩
  | between mg start =>
    rw [hp] at h
    rw [h.2.2.2.2.1]
    exact ⟨unread_new, unread_new⟩
  | lengths mg start =>
    rw [hp] at h
    rw [h.2.2.2.2]
    exact ⟨unread_new, unread_new⟩
  | header mg start ls =>
    rw [hp] at h
    obtain ⟨-, -, -, buf, hthe, hbuf⟩ := h
    rw [hthe]
    exact ⟨hbuf.unread, unread_new⟩
  | body mg start ls hd =>
    rw [hp] at h
    obtain ⟨-, -, -, hbuf, buf, hthe, hhold, hbold⟩ := h
    rw [hthe]
    exact ⟨hhold.unread, hbold.unread⟩

theorem Sim.ready (h : Sim store base m s rest fs) : m.Ready store where
  storage := h.window.storage
  cursor := h.window.cursor
  count := by
    rw [h.window.count]
    exact Int.natCast_nonneg _
  inside := h.window.inside.le
  request := h.inPart.unread
  reqs := by
    intro r hr
    obtain ⟨i, hi, rfl⟩ := List.getElem_of_mem hr
    have hone := h.reqs.get hi (h.reqs.length_eq ▸ hi)
    exact ⟨hone.header.unread, hone.body.unread⟩

theorem Sim.view_eq (h : Sim store base m s rest fs) :
    m.view store = ⟨m.loop, progressOf s, rest, fs.map Frame.content⟩ := by
  ext1
  · rfl
  · exact h.inPart.progress_eq
  · have hcount := h.window.count
    show slice (store m.id) m.buf.curIndex m.length = rest
    rw [slice_eq_take _ h.window.left, hcount, Int.toNat_natCast, List.take_length]
  · exact contents_eq h.reqs

/-- The values are those of a call, on some buffers, that is on the way of the frame reader. -/
def Follows (v : ParseView) (s : State Part UInt8) (rest : List UInt8) (fs : List Frame) : Prop :=
  ∃ store base m, Sim store base m s rest fs ∧ m.view store = v

theorem Follows.eq (h : Follows v s rest fs) :
    v = ⟨v.loop, progressOf s, rest, fs.map Frame.content⟩ := by
  obtain ⟨store, base, m, hsim, rfl⟩ := h
  exact hsim.view_eq

/-- A call on a chunk, where the chunks before it have been read. -/
theorem follows_call (hr : frameReader.Reads fresh stream t fs) (chunk : List UInt8) :
    Follows ⟨.parseConnection, progressOf t, chunk, []⟩ t chunk [] := by
  have hch : [stream, chunk] = [] ++ ([stream] ++ [chunk]) := rfl
  rw [← List.append_nil stream] at hr
  obtain ⟨conn, rs, -, hrest, -⟩ := feeds_of_reads hch (@atRest_fresh _ 0) rfl hr
  have hpos : baseOf [stream, chunk] 1 = position t := by
    have hlen := position_of_visits hr trivial
    simpa [baseOf, position, fresh, inProgress, Part.start] using hlen
  have hsim : Sim (storeOf [stream, chunk]) (baseOf [stream, chunk]) (.feed conn 1 chunk) t chunk [] :=
    sim_feed hrest rfl hpos
  exact ⟨_, _, _, hsim, hsim.view_eq⟩

/-- Where the frame reader can go on, the code takes no negative number of bytes. -/
theorem Follows.remain_nonneg (h : Follows v s rest fs) (hr : frameReader.Reads s rest t o)
    (hne : rest ≠ []) : 0 ≤ v.remain := by
  obtain ⟨store, base, m, hsim, rfl⟩ := h
  have hwindow := hsim.inWindow (need_of_reads hr (.refl _ _) hne)
  have hcount := hsim.window.count
  have hlen := List.length_pos_iff.mpr hne
  rw [hsim.ready.remain_eq]
  exact (hwindow.range (by omega)).1

/-- A turn stays on the way. -/
theorem Follows.step (h : Follows v s rest fs) (hr : frameReader.Reads s rest t o)
    (hstep : v.step = some w) : ∃ s' rest' o₁ o₂,
      frameReader.Reads s' rest' t o₂ ∧ Follows w s' rest' (fs ++ o₁) ∧ o = o₁ ++ o₂ := by
  have hremain := h.remain_nonneg hr
  obtain ⟨store, base, m, hsim, rfl⟩ := h
  have hready := hsim.ready
  cases hm : m.step with
  | none =>
    rw [step_view_of_none hready hm] at hstep
    cases hstep
  | some n =>
    -- bytes are left on the buffers where they are on the values
    have hpos : 0 < m.length → 0 ≤ m.remain := by
      intro hlen
      rw [← hready.remain_eq]
      apply hremain
      rintro rfl
      have hcount := hsim.window.count
      rw [hcount] at hlen
      exact absurd hlen (lt_irrefl 0)
    obtain ⟨-, hview⟩ := view_step hready hpos hm
    rw [hview] at hstep
    cases hstep
    obtain ⟨s', rest', o₁, hv, hsim'⟩ := sim_step hr hsim hm
    obtain ⟨o₂, hr', ho⟩ := hr.after hv
    exact ⟨s', rest', o₁, o₂, hr', ⟨store, base, n, hsim', rfl⟩, ho⟩

end Following

end MgRaffle.MgServer
