import MgRaffle.TcpServer.ParserWindow

open MgRaffle.MgServer (memcpy slice)

namespace MgRaffle.TcpServer

/-- The places of `size` bytes of a chunk, from `offset` on. -/
def places (buf : ℕ) (offset : ℤ) (size : ℕ) : List (ℕ × ℤ) :=
  (List.range size).map fun i : ℕ => (buf, offset + i)

def BufHandle.places (h : BufHandle) : List (ℕ × ℤ) := TcpServer.places h.buf h.offset h.size.toNat

namespace Window

def bytes (w : Window) : List UInt8 := slice w.data w.consume w.remain

def places (w : Window) : List (ℕ × ℤ) := TcpServer.places w.buf w.consume w.remain

end Window

namespace RpcMessage

/-- `_recieve_header` as the peer sends it. -/
def header (m : RpcMessage) : List UInt8 :=
  LittleEndian.ofNat32 m.metaSize ++ LittleEndian.ofNat32 m.dataSize ++
    LittleEndian.ofNat32 (m.metaSize + m.dataSize)

/-- What the parser gets of a message, without the magic number. -/
def frame (m : RpcMessage) : List UInt8 := m.header ++ m.body

end RpcMessage

/-- A message and the windows that its bytes come in. -/
structure Delivery where
  message : RpcMessage
  windows : List Window
  split : windows.flatMap Window.bytes = message.frame

/-- 0 for every window but the last one. -/
def Delivery.returns (d : Delivery) : List ℤ := List.replicate (d.windows.length - 1) 0 ++ [1]

/-- The handles cover the bytes behind the header, each one once and in their order. -/
structure Covers (r : SBinaryRequest) (windows : List Window) : Prop where
  sizes : ∀ h ∈ r.readBuf, 0 ≤ h.size
  places : r.readBuf.flatMap BufHandle.places = (windows.flatMap Window.places).drop 12

namespace SBinarySTreamParser

/-- What the calls return, and the requests that are got after each 1. -/
def feed : SBinarySTreamParser → List Window →
    Option (List ℤ × List SBinaryRequest × SBinarySTreamParser)
  | p, [] => some ([], [], p)
  | p, w :: ws => (p.parseWindow w).bind fun o =>
    let (requests, p) :=
      if o.ret = 1 then ([o.parser.getRequest.1], o.parser.getRequest.2) else ([], o.parser)
    (feed p ws).map fun r => (o.ret :: r.1, requests ++ r.2.1, r.2.2)

/-- Every message is complete with its last byte and not before, and has a request of its own with
its bytes. -/
def Completes (p : SBinarySTreamParser) (ds : List Delivery) : Prop :=
  ∃ rets requests q, p.feed (ds.flatMap (·.windows)) = some (rets, requests, q) ∧
    rets = ds.flatMap (·.returns) ∧ List.Forall₂ (fun r d => Covers r d.windows) requests ds

end SBinarySTreamParser

section Places

theorem length_places (buf : ℕ) (offset : ℤ) (size : ℕ) : (places buf offset size).length = size := by
  rw [places, List.length_map, List.length_range]

theorem drop_places (buf : ℕ) (offset : ℤ) (size k : ℕ) :
    (places buf offset size).drop k = places buf (offset + k) (size - k) := by
  apply List.ext_getElem
  · rw [List.length_drop, length_places, length_places]
  · intro i hi hi'
    simp only [places, List.getElem_drop, List.getElem_map, List.getElem_range, Prod.mk.injEq, true_and]
    push_cast
    ring

theorem Window.length_bytes (w : Window) : w.bytes.length = w.remain := by
  have hfits := w.fits
  simp only [Window.bytes, slice, List.length_take, List.length_drop, Int.toNat_natCast]
  omega

theorem Window.bytes_ne_nil (w : Window) : w.bytes ≠ [] := by
  apply List.ne_nil_of_length_pos
  rw [w.length_bytes]
  exact w.pos

theorem Window.length_places (w : Window) : w.places.length = w.bytes.length := by
  rw [w.length_bytes, Window.places, TcpServer.length_places]

theorem length_flatMap_places (ws : List Window) :
    (ws.flatMap Window.places).length = (ws.flatMap Window.bytes).length := by
  rw [List.length_flatMap, List.length_flatMap]
  simp only [Window.length_places]

end Places

namespace RpcMessage

variable (m : RpcMessage) (rest : List UInt8)

theorem length_header : m.header.length = 12 := rfl

theorem messageSize_header : RpcMessageHeader.messageSize (m.header ++ rest) =
    m.metaSize + m.dataSize := by
  have h := m.fits
  have hdrop : (m.header ++ rest).drop 8 =
      LittleEndian.ofNat32 (m.metaSize + m.dataSize) ++ rest := rfl
  rw [RpcMessageHeader.messageSize, hdrop, LittleEndian.toInt32_ofNat32 (by omega)]
  push_cast
  ring

theorem sumSize_header : RpcMessageHeader.sumSize (m.header ++ rest) =
    m.metaSize + m.dataSize := by
  have h := m.fits
  have hmeta : RpcMessageHeader.metaSize (m.header ++ rest) = m.metaSize := by
    have htake : (m.header ++ rest).take 4 = LittleEndian.ofNat32 m.metaSize ++ [] := rfl
    rw [RpcMessageHeader.metaSize, htake, LittleEndian.toInt32_ofNat32 (by omega)]
  have hdata : RpcMessageHeader.dataSize (m.header ++ rest) = m.dataSize := by
    have htake : ((m.header ++ rest).drop 4).take 4 = LittleEndian.ofNat32 m.dataSize ++ [] := rfl
    rw [RpcMessageHeader.dataSize, htake, LittleEndian.toInt32_ofNat32 (by omega)]
  rw [RpcMessageHeader.sumSize, hmeta, hdata]
  apply Int.bmod_eq_of_le <;> omega

/-- What has come of a message, the window that comes now and what is still to come. -/
theorem length_split {m : RpcMessage} {seen : List Window} {w : Window} {more : List UInt8}
    (hsplit : m.frame = seen.flatMap Window.bytes ++ w.bytes ++ more) :
    12 + (m.metaSize + m.dataSize) =
      (seen.flatMap Window.bytes).length + w.remain + more.length := by
  have hframe := congrArg List.length hsplit
  rwa [frame, List.length_append, List.length_append, List.length_append, m.length_header,
    m.length_body, w.length_bytes] at hframe

end RpcMessage

theorem Delivery.windows_ne_nil (d : Delivery) : d.windows ≠ [] := by
  intro hnil
  have hlength := congrArg List.length d.split
  rw [hnil, RpcMessage.frame, List.length_append, d.message.length_header, List.flatMap_nil,
    List.length_nil] at hlength
  omega

/-- The first bytes of a header that is not complete, and the bytes that come behind them. -/
theorem memcpy_behind (got rest bytes : List UInt8) {off : ℤ} (hoff : off = got.length) :
    memcpy (got ++ rest) off bytes = got ++ bytes ++ rest.drop bytes.length := by
  rw [memcpy, hoff, Int.toNat_natCast, List.take_left, ← List.drop_drop, List.drop_left]

section Covering

variable {seen : List Window} {w : Window}

/-- The handle of the bytes of a window that lie behind the header covers them. -/
theorem Covers.append {request : SBinaryRequest} {k : ℕ} (h : Covers request seen)
    (hk : 12 - (seen.flatMap Window.bytes).length = k) (hle : k ≤ w.remain) :
    Covers (request.append ⟨w.consume + k, w.remain - k, w.buf⟩) (seen ++ [w]) := by
  obtain ⟨hsizes, hplaces⟩ := h
  refine ⟨?_, ?_⟩
  · intro g hg
    rcases List.mem_append.mp hg with hg | hg
    · exact hsizes g hg
    · rw [List.mem_singleton.mp hg]
      dsimp only
      omega
  · have hsize : ((w.remain : ℤ) - k).toNat = w.remain - k := by omega
    have hwindow : BufHandle.places ⟨w.consume + k, w.remain - k, w.buf⟩ = w.places.drop k := by
      rw [BufHandle.places, hsize, Window.places, drop_places]
    rw [SBinaryRequest.append, List.flatMap_append, List.flatMap_singleton, hplaces, hwindow,
      List.flatMap_append, List.flatMap_singleton, List.drop_append, length_flatMap_places, hk]

/-- As long as the header is not complete there is nothing to cover. -/
theorem covers_nothing {request : SBinaryRequest} (hrequest : request.readBuf = [])
    (hlen : (seen.flatMap Window.bytes).length ≤ 12) : Covers request seen := by
  refine ⟨?_, ?_⟩
  · rw [hrequest]
    exact fun g hg => nomatch hg
  · rw [hrequest, List.drop_eq_nil_of_le (by rwa [length_flatMap_places])]
    rfl

end Covering

namespace SBinarySTreamParser

/-- Where the parser is in a message once it has got the windows `seen`. -/
inductive Reading (m : RpcMessage) (seen : List Window) : SBinarySTreamParser → Prop
  | header {rest : List UInt8} {request : SBinaryRequest}
      (hlen : (seen.flatMap Window.bytes).length < 12) (hrequest : request.readBuf = []) :
      Reading m seen ⟨seen.flatMap Window.bytes ++ rest, .rpcHeader, request,
        (seen.flatMap Window.bytes).length⟩
  | message {rest : List UInt8} {request : SBinaryRequest} {done : ℕ}
      (hlen : (seen.flatMap Window.bytes).length = 12 + done) (hcovers : Covers request seen) :
      Reading m seen ⟨m.header ++ rest, .rpcMessage, request, done⟩

/-- The parser waits for the first byte of a message. -/
structure Ready (p : SBinarySTreamParser) : Prop where
  type : p.type = .rpcHeader
  readSize : p.moduleHasReadSize = 0
  request : p.request.readBuf = []

theorem ready_new : new.Ready := ⟨rfl, rfl, rfl⟩

variable {m : RpcMessage} {seen ws : List Window} {w : Window} {p : SBinarySTreamParser}

theorem Ready.reading (h : p.Ready) (m : RpcMessage) : Reading m [] p := by
  obtain ⟨bytes, type, request, size⟩ := p
  obtain ⟨rfl, rfl, hrequest⟩ := h
  have hreading : Reading m [] ⟨[] ++ bytes, .rpcHeader, request, 0⟩ := .header (by decide) hrequest
  exact hreading

/-- The bytes of a message, `r` of them from place `c` of a chunk. -/
theorem messageCase_fits {request : SBinaryRequest} {rest : List UInt8} {done : ℕ} {buf : ℕ}
    {c r : ℤ} (hfits : done + r ≤ m.metaSize + m.dataSize) :
    messageCase ⟨m.header ++ rest, .rpcMessage, request, done⟩ buf c r =
      if done + r < m.metaSize + m.dataSize then
        ⟨0, ⟨m.header ++ rest, .rpcMessage, request.append ⟨c, r, buf⟩, done + r⟩, c + r, 0⟩
      else ⟨1, ⟨m.header ++ rest, .rpcHeader, request.append ⟨c, r, buf⟩, 0⟩, c + r, 0⟩ := by
  have hmin : min ((m.metaSize + m.dataSize : ℤ) - done) r = r := min_eq_right (by omega)
  unfold messageCase
  dsimp only
  rw [m.messageSize_header, hmin, sub_self]
  rfl

/-- A header that is complete is the peer's. -/
theorem completed_eq {rest more : List UInt8} {request : SBinaryRequest}
    (hsplit : m.frame = seen.flatMap Window.bytes ++ w.bytes ++ more)
    (hlen : (seen.flatMap Window.bytes).length < 12)
    (hlong : 12 ≤ (seen.flatMap Window.bytes).length + w.remain) :
    completed ⟨seen.flatMap Window.bytes ++ rest, .rpcHeader, request,
        (seen.flatMap Window.bytes).length⟩ w =
      m.header ++ rest.drop (12 - (seen.flatMap Window.bytes).length) := by
  have hbytes := w.length_bytes
  have hslice : slice w.data w.consume (gHeaderSize - (seen.flatMap Window.bytes).length) =
      w.bytes.take (12 - (seen.flatMap Window.bytes).length) := by
    have hmin : min (12 - (seen.flatMap Window.bytes).length) w.remain =
        12 - (seen.flatMap Window.bytes).length := by omega
    have hnat : (gHeaderSize - ((seen.flatMap Window.bytes).length : ℤ)).toNat =
        12 - (seen.flatMap Window.bytes).length := by
      unfold gHeaderSize
      omega
    rw [Window.bytes, slice, slice, List.take_take, hnat, Int.toNat_natCast w.remain, hmin]
  have hheader : m.header = seen.flatMap Window.bytes ++
      w.bytes.take (12 - (seen.flatMap Window.bytes).length) := by
    calc
      m.header = m.frame.take 12 := (List.take_left' m.length_header).symm
      _ = _ := by
        rw [hsplit, List.append_assoc, List.take_append, List.take_of_length_le hlen.le,
          List.take_append_of_le_length (by omega)]
  have htake : (w.bytes.take (12 - (seen.flatMap Window.bytes).length)).length =
      12 - (seen.flatMap Window.bytes).length := by
    rw [List.length_take]
    omega
  rw [completed]
  dsimp only
  rw [hslice, memcpy_behind _ _ _ rfl, htake, hheader]

/-- The window that the header ends in. -/
theorem parse_complete (rest : List UInt8) (request : SBinaryRequest) {more : List UInt8} {k : ℕ}
    (hsplit : m.frame = seen.flatMap Window.bytes ++ w.bytes ++ more)
    (hlen : (seen.flatMap Window.bytes).length < 12)
    (hlong : 12 ≤ (seen.flatMap Window.bytes).length + w.remain)
    (hk : 12 - (seen.flatMap Window.bytes).length = k) :
    parseWindow ⟨seen.flatMap Window.bytes ++ rest, .rpcHeader, request,
        (seen.flatMap Window.bytes).length⟩ w =
      if (w.remain : ℤ) - k = 0 then
        some ⟨0, ⟨m.header ++ rest.drop k, .rpcMessage, request, 0⟩, w.consume + k, w.remain - k⟩
      else
        some (messageCase ⟨m.header ++ rest.drop k, .rpcMessage, request, 0⟩ w.buf (w.consume + k)
          (w.remain - k)) := by
  have hcast : gHeaderSize - ((seen.flatMap Window.bytes).length : ℤ) = k := by
    unfold gHeaderSize
    omega
  rw [parseWindow_completed rfl (by dsimp only; omega) (by dsimp only; omega),
    completed_eq hsplit hlen hlong, m.messageSize_header, m.sumSize_header,
    if_neg (not_not.mpr rfl), hk]
  dsimp only
  rw [hcast]

/-- A window that goes beyond the header is read by the other case in the end. -/
theorem Reading.beyond {more : List UInt8} (h : Reading m seen p)
    (hsplit : m.frame = seen.flatMap Window.bytes ++ w.bytes ++ more)
    (hlong : 12 < (seen.flatMap Window.bytes).length + w.remain) :
    ∃ (rest : List UInt8) (request : SBinaryRequest) (done k : ℕ),
      p.parseWindow w = some (messageCase ⟨m.header ++ rest, .rpcMessage, request, done⟩ w.buf
        (w.consume + k) (w.remain - k)) ∧
      Covers (request.append ⟨w.consume + k, w.remain - k, w.buf⟩) (seen ++ [w]) ∧ k ≤ w.remain ∧
      ((seen.flatMap Window.bytes).length + w.remain : ℤ) = 12 + done + (w.remain - k) := by
  cases h with
  | header hlen hrequest =>
    rename_i rest request
    refine ⟨rest.drop (12 - (seen.flatMap Window.bytes).length), request, 0,
      12 - (seen.flatMap Window.bytes).length, ?_,
      (covers_nothing hrequest hlen.le).append rfl (by omega), by omega, by omega⟩
    rw [parse_complete rest request hsplit hlen hlong.le rfl, if_neg (by omega)]
    rfl
  | message hlen hcovers =>
    rename_i rest request done
    refine ⟨rest, request, done, 0, ?_, hcovers.append (by omega) (Nat.zero_le _), Nat.zero_le _,
      by omega⟩
    rw [parseWindow_message rfl, Nat.cast_zero, add_zero, sub_zero]

/-- A window that is not the last one of its message, or that the header ends with. -/
theorem Reading.wait {more : List UInt8} (h : Reading m seen p)
    (hsplit : m.frame = seen.flatMap Window.bytes ++ w.bytes ++ more)
    (hmore : more ≠ [] ∨ m.metaSize + m.dataSize = 0) :
    ∃ o, p.parseWindow w = some o ∧ o.ret = 0 ∧ Reading m (seen ++ [w]) o.parser := by
  have hframe := RpcMessage.length_split hsplit
  have hsnoc : (seen ++ [w]).flatMap Window.bytes = seen.flatMap Window.bytes ++ w.bytes := by
    rw [List.flatMap_append, List.flatMap_singleton]
  have hlength : ((seen ++ [w]).flatMap Window.bytes).length =
      (seen.flatMap Window.bytes).length + w.remain := by
    rw [hsnoc, List.length_append, w.length_bytes]
  by_cases hlong : 12 < (seen.flatMap Window.bytes).length + w.remain
  · obtain ⟨rest, request, done, k, hparse, hcovers, hk, hdone⟩ := h.beyond hsplit hlong
    have hleft := List.length_pos_of_ne_nil (hmore.resolve_right (by omega))
    have hcast : (done : ℤ) + (w.remain - k) = (done + (w.remain - k) : ℕ) := by omega
    rw [messageCase_fits (by omega), if_pos (by omega), hcast] at hparse
    exact ⟨_, hparse, rfl, .message (by omega) hcovers⟩
  · cases h with
    | header hlen hrequest =>
      rename_i rest request
      rcases (not_lt.mp hlong).eq_or_lt with hend | hshort
      · have hparse := parse_complete rest request hsplit hlen hend.ge rfl
        rw [if_pos (by omega)] at hparse
        refine ⟨_, hparse, rfl, ?_⟩
        have hcovers : Covers request (seen ++ [w]) := covers_nothing hrequest (by omega)
        have hreading : Reading m (seen ++ [w]) ⟨m.header ++ rest.drop (12 -
          (seen.flatMap Window.bytes).length), .rpcMessage, request, (0 : ℕ)⟩ :=
            .message (by omega) hcovers
        exact hreading
      · refine ⟨_, parseWindow_partial rfl (by unfold gHeaderSize; dsimp only; omega), rfl, ?_⟩
        have hslice : slice w.data w.consume w.remain = w.bytes := rfl
        have hreading : Reading m (seen ++ [w]) ⟨(seen ++ [w]).flatMap Window.bytes ++
          rest.drop w.bytes.length, .rpcHeader, request, _⟩ := .header (by omega) hrequest
        rw [hlength, hsnoc, Nat.cast_add] at hreading
        dsimp only
        rw [hslice, memcpy_behind _ _ _ rfl]
        exact hreading
    | message hlen hcovers =>
      have hpos := w.pos
      omega

/-- The window that a message of at least one byte ends with. -/
theorem Reading.complete (h : Reading m seen p)
    (hsplit : m.frame = seen.flatMap Window.bytes ++ w.bytes ++ [])
    (hpos : 0 < m.metaSize + m.dataSize) :
    ∃ o, p.parseWindow w = some o ∧ o.ret = 1 ∧ Covers o.parser.getRequest.1 (seen ++ [w]) ∧
      o.parser.getRequest.2.Ready := by
  have hframe := RpcMessage.length_split hsplit
  rw [List.length_nil] at hframe
  obtain ⟨rest, request, done, k, hparse, hcovers, hk, hdone⟩ := h.beyond hsplit (by omega)
  rw [messageCase_fits (by omega), if_neg (by omega)] at hparse
  exact ⟨_, hparse, rfl, hcovers, rfl, rfl, rfl⟩

theorem feed_wait {o : Parsed} (ho : p.parseWindow w = some o) (hret : o.ret = 0) :
    p.feed (w :: ws) = (o.parser.feed ws).map fun r => (0 :: r.1, r.2.1, r.2.2) := by
  rw [feed, ho, Option.bind_some, hret]
  rfl

theorem feed_complete {o : Parsed} (ho : p.parseWindow w = some o) (hret : o.ret = 1) :
    p.feed [w] = some ([1], [o.parser.getRequest.1], o.parser.getRequest.2) := by
  rw [feed, ho, Option.bind_some, hret]
  rfl

theorem feed_append (ws' : List Window) : p.feed (ws ++ ws') = (p.feed ws).bind fun r =>
    (r.2.2.feed ws').map fun s => (r.1 ++ s.1, r.2.1 ++ s.2.1, s.2.2) := by
  induction ws generalizing p with
  | nil =>
    rw [List.nil_append, feed, Option.bind_some]
    simp only [List.nil_append, Option.map_id']
  | cons w ws ih =>
    rw [List.cons_append, feed, feed]
    cases p.parseWindow w with
    | none => rfl
    | some o =>
      rw [Option.bind_some, Option.bind_some]
      generalize (if o.ret = 1 then ([o.parser.getRequest.1], o.parser.getRequest.2)
        else ([], o.parser)) = got
      obtain ⟨requests, q⟩ := got
      dsimp only
      rw [ih]
      cases q.feed ws with
      | none => rfl
      | some r =>
        rw [Option.map_some, Option.bind_some, Option.bind_some, Option.map_map]
        congr 1
        funext s
        exact congrArg _ (congrArg₂ _ (List.append_assoc _ _ _).symm rfl)

/-- A message of at least one byte is complete with its last window. -/
theorem Reading.feed_complete (h : Reading m seen p) (hws : ws ≠ [])
    (hsplit : m.frame = seen.flatMap Window.bytes ++ ws.flatMap Window.bytes)
    (hpos : 0 < m.metaSize + m.dataSize) :
    ∃ r q, p.feed ws = some (List.replicate (ws.length - 1) 0 ++ [1], [r], q) ∧
      Covers r (seen ++ ws) ∧ q.Ready := by
  induction ws generalizing seen p with
  | nil => exact absurd rfl hws
  | cons w ws ih =>
    rw [List.flatMap_cons, ← List.append_assoc] at hsplit
    cases ws with
    | nil =>
      obtain ⟨o, ho, hret, hcovers, hready⟩ := h.complete hsplit hpos
      exact ⟨_, _, SBinarySTreamParser.feed_complete ho hret, hcovers, hready⟩
    | cons w' ws =>
      have hmore : (w' :: ws).flatMap Window.bytes ≠ [] := by
        rw [List.flatMap_cons]
        exact List.append_ne_nil_of_left_ne_nil w'.bytes_ne_nil _
      obtain ⟨o, ho, hret, hreading⟩ := h.wait hsplit (.inl hmore)
      obtain ⟨r, q, hfeed, hcovers, hready⟩ := ih hreading (List.cons_ne_nil _ _)
        (by rwa [List.flatMap_append, List.flatMap_singleton])
      refine ⟨r, q, ?_, ?_, hready⟩
      · rw [feed_wait ho hret, hfeed]
        rfl
      · rwa [List.append_assoc] at hcovers

/-- A message of no bytes is not complete with its last window. -/
theorem Reading.feed_empty (h : Reading m seen p)
    (hsplit : m.frame = seen.flatMap Window.bytes ++ ws.flatMap Window.bytes)
    (hzero : m.metaSize + m.dataSize = 0) :
    ∃ q, p.feed ws = some (List.replicate ws.length 0, [], q) := by
  induction ws generalizing seen p with
  | nil => exact ⟨p, rfl⟩
  | cons w ws ih =>
    rw [List.flatMap_cons, ← List.append_assoc] at hsplit
    obtain ⟨o, ho, hret, hreading⟩ := h.wait hsplit (.inr hzero)
    obtain ⟨q, hfeed⟩ := ih hreading (by rwa [List.flatMap_append, List.flatMap_singleton])
    refine ⟨q, ?_⟩
    rw [feed_wait ho hret, hfeed]
    rfl

/-- A parser that waits for a message completes all those that come if and only if none of them is
empty. -/
theorem Ready.completes_iff {ds : List Delivery} (h : p.Ready) :
    p.Completes ds ↔ ∀ d ∈ ds, 0 < d.message.metaSize + d.message.dataSize := by
  induction ds generalizing p with
  | nil =>
    constructor
    · exact fun _ d hd => nomatch hd
    · exact fun _ => ⟨[], [], p, rfl, rfl, .nil⟩
  | cons d ds ih =>
    have hreading := h.reading d.message
    have hsplit := d.split.symm
    have hlength := List.length_pos_of_ne_nil d.windows_ne_nil
    rw [List.forall_mem_cons]
    rcases Nat.eq_zero_or_pos (d.message.metaSize + d.message.dataSize) with hzero | hpos
    · -- it is followed by no 1, which the windows after it cannot make up for
      refine ⟨?_, fun hall => absurd hzero hall.1.ne'⟩
      rintro ⟨rets, requests, q, hfeed, hrets, -⟩
      obtain ⟨q', hempty⟩ := hreading.feed_empty hsplit hzero
      have hlast : d.windows.length = d.windows.length - 1 + 1 := by omega
      rw [List.flatMap_cons, feed_append, hempty, Option.bind_some] at hfeed
      obtain ⟨s, -, heq⟩ := Option.map_eq_some_iff.mp hfeed
      have hsame := (congrArg Prod.fst heq).trans hrets
      dsimp only at hsame
      rw [List.flatMap_cons, Delivery.returns, hlast, List.replicate_succ', List.append_assoc,
        Nat.add_sub_cancel, List.append_assoc, List.append_cancel_left_eq] at hsame
      exact absurd (List.cons.inj hsame).1 (by decide)
    · obtain ⟨r, q, hrun, hcovers, hready⟩ := hreading.feed_complete d.windows_ne_nil hsplit hpos
      rw [← ih hready]
      constructor
      · rintro ⟨rets, requests, q', hfeed, hrets, hall⟩
        refine ⟨hpos, ?_⟩
        rw [List.flatMap_cons, feed_append, hrun, Option.bind_some] at hfeed
        obtain ⟨s, hs, heq⟩ := Option.map_eq_some_iff.mp hfeed
        simp only [Prod.mk.injEq] at heq
        obtain ⟨rfl, rfl, rfl⟩ := heq
        refine ⟨s.1, s.2.1, s.2.2, hs, ?_, ?_⟩
        · exact List.append_cancel_left hrets
        · exact (List.forall₂_cons.mp hall).2
      · rintro ⟨-, rets, requests, q', hfeed, hrets, hall⟩
        refine ⟨d.returns ++ rets, r :: requests, q', ?_, ?_, .cons hcovers hall⟩
        · rw [List.flatMap_cons, feed_append, hrun, Option.bind_some, hfeed]
          rfl
        · rw [List.flatMap_cons, hrets]

/-- In every sequence of messages, however their bytes are split, each one is complete with its last
byte if and only if none of them is empty. -/
theorem parser_completes_iff (ds : List Delivery) :
    new.Completes ds ↔ ∀ d ∈ ds, 0 < d.message.metaSize + d.message.dataSize :=
  ready_new.completes_iff

/-- A message of no bytes, whose header comes in one window. -/
theorem empty_message_waits : ¬ ∀ ds : List Delivery, new.Completes ds := by
  intro h
  obtain ⟨rets, requests, q, hfeed, hrets, -⟩ := h [⟨⟨0, 0, [], rfl, by decide⟩,
    [⟨0, List.replicate 12 0, 0, 12, by decide, by decide⟩], by decide⟩]
  cases hfeed
  revert hrets
  decide

end SBinarySTreamParser

end MgRaffle.TcpServer
