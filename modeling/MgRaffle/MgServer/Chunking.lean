import MgRaffle.MgServer.Feeding

namespace MgRaffle.MgServer
open Collector

/-- What a request shows of the bytes it was cut from. -/
@[ext] structure Content where
  lengthHeader : List UInt8
  header : List UInt8
  body : List UInt8
  deriving Repr, DecidableEq

def MRequest.content (store : BufId → List UInt8) (r : MRequest) : Content :=
  ⟨r.lengthHeader, r.rpcHeaderBuf.pending store, r.rpcBodyBuf.pending store⟩

def Frame.content (f : Frame) : Content := ⟨f.lengths, f.header, f.body⟩

/-- What a connection between two calls remembers of the stream. A connection that has no
parser yet would build a new one. -/
@[ext] structure Progress where
  parseType : ParseType
  magicRemain : ℤ
  magic : List UInt8
  headerRemain : ℤ
  rpcRemain : Option ℤ
  request : Content
  deriving Repr, DecidableEq

def MConnection.progress (store : BufId → List UInt8) (c : MConnection) : Progress where
  parseType := c.parseType
  magicRemain := c.magicRemain
  magic := c.magic
  headerRemain := c.theParser.headerRemain
  rpcRemain := c.theParser.rpcRemain
  request := c.theParser.req.content store

/-- The same, of a state of the frame reader. -/
def progressOf (s : State Part UInt8) : Progress :=
  match s.part with
  | .magic =>
    ⟨.magic, 4 - s.got.length, s.got ++ List.replicate (4 - s.got.length) 0, 8, none, ⟨[], [], []⟩⟩
  | .between m _ => ⟨.magic, 0, m, 8, some 0, ⟨[], [], []⟩⟩
  | .lengths m start =>
    ⟨.header, 0, m, 8 - s.got.length, if start = 0 then none else some 0, ⟨s.got, [], []⟩⟩
  | .header m _ ls =>
    ⟨.rpcHeader, 0, m, 0, some (MLengthHeader.rpcHeaderLength ls - s.got.length), ⟨ls, s.got, []⟩⟩
  | .body m _ ls h =>
    ⟨.rpcContent, 0, m, 0, some (MLengthHeader.rpcBodyLength ls - s.got.length), ⟨ls, h, s.got⟩⟩

section Observing

variable {store : BufId → List UInt8} {base : BufId → ℕ} {conn : MConnection} {l : Loop}
  {s : State Part UInt8} {r : MRequest} {f : Frame} {rs : List MRequest} {fs : List Frame}

theorem IsRequest.content_eq (h : IsRequest store base r f) : r.content store = f.content := by
  ext1
  · exact h.lengths
  · exact h.header.bytes
  · exact h.body.bytes

theorem contents_eq (h : List.Forall₂ (IsRequest store base) rs fs) :
    rs.map (MRequest.content store) = fs.map Frame.content := by
  induction h with
  | nil => rfl
  | cons hr _ ih => rw [List.map_cons, List.map_cons, hr.content_eq, ih]

/-- The fields of a connection hold nothing but the state of the frame reader. -/
theorem InPart.progress_eq (h : InPart store l conn s) : conn.progress store = progressOf s := by
  unfold InPart at h
  unfold progressOf
  cases hp : s.part with
  | magic =>
    rw [hp] at h
    obtain ⟨htype, hmr, -, hmagic, hthe, -⟩ := h
    -- the parser has not been made yet, so the fields show an empty request
    simp [MConnection.progress, htype, hmr, hmagic, hthe, MParser.new, MRequest.new,
      MRequest.content, MLengthHeader.size]
  | between m start =>
    rw [hp] at h
    obtain ⟨htype, hmr, hmagic, -, hthe, -⟩ := h
    simp [MConnection.progress, htype, hmr, hmagic, hthe, MRequest.new, MRequest.content]
  | lengths m start =>
    rw [hp] at h
    obtain ⟨htype, hmr, hmagic, -, hthe⟩ := h
    simp [MConnection.progress, htype, hmr, hmagic, hthe, MRequest.content]
  | header m start ls =>
    rw [hp] at h
    obtain ⟨htype, hmr, hmagic, buf, hthe, hbuf⟩ := h
    simp [MConnection.progress, htype, hmr, hmagic, hthe, MRequest.content, hbuf.bytes]
  | body m start ls hd =>
    rw [hp] at h
    obtain ⟨htype, hmr, hmagic, hbuf, buf, hthe, hhold, hbold⟩ := h
    simp [MConnection.progress, htype, hmr, hmagic, hthe, MRequest.content, hhold.bytes,
      hbold.bytes]

/-- The chunks fed to a fresh connection show what the whole stream shows. -/
theorem feeds_observed (fd : ℤ) {chunks : List (List UInt8)}
    (hr : frameReader.Reads fresh chunks.flatten s fs) :
    ∃ conn rs, Feeds 0 (.new fd) chunks conn rs ∧
      rs.flatten.map (MRequest.content (storeOf chunks)) = fs.map Frame.content ∧
      conn.progress (storeOf chunks) = progressOf s := by
  obtain ⟨conn, rs, hfeeds, hrest, hreqs⟩ := feeds_fresh fd hr
  exact ⟨conn, rs, hfeeds, contents_eq hreqs, hrest.inPart.progress_eq⟩

end Observing

/-- Two ways of cutting a stream yield the same requests and leave the same state. -/
theorem chunking_irrelevant (fd : ℤ) (stream : List UInt8) (cs ds : List (List UInt8))
    (h : LengthsNonneg stream) (hcs : cs.flatten = stream) (hds : ds.flatten = stream) :
    ∃ conn rs conn' rs', Feeds 0 (.new fd) cs conn rs ∧ Feeds 0 (.new fd) ds conn' rs' ∧
      rs.flatten.map (MRequest.content (storeOf cs)) =
        rs'.flatten.map (MRequest.content (storeOf ds)) ∧
      conn.progress (storeOf cs) = conn'.progress (storeOf ds) := by
  obtain ⟨t, fs, hr⟩ := h.loaded.acted.reads
  obtain ⟨conn, rs, hfeeds, hreqs, hprog⟩ := feeds_observed fd (hcs.symm ▸ hr)
  obtain ⟨conn', rs', hfeeds', hreqs', hprog'⟩ := feeds_observed fd (hds.symm ▸ hr)
  exact ⟨conn, rs, conn', rs', hfeeds, hfeeds', hreqs.trans hreqs'.symm, hprog.trans hprog'.symm⟩

/-- Two messages without header and with a one-byte body, and three bytes of a third. -/
def twoMessages : List UInt8 :=
  MAGIC ++ [0, 0, 0, 0, 1, 0, 0, 0, 7] ++ [0, 0, 0, 0, 1, 0, 0, 0, 8] ++ [2, 0, 0]

theorem chunking_irrelevant_cut : ∃ conn rs conn' rs',
    Feeds 0 (.new 5) [twoMessages] conn rs ∧
    Feeds 0 (.new 5) (twoMessages.map fun b => [b]) conn' rs' ∧
    rs.flatten.map (MRequest.content (storeOf [twoMessages])) =
      [⟨[0, 0, 0, 0, 1, 0, 0, 0], [], [7]⟩, ⟨[0, 0, 0, 0, 1, 0, 0, 0], [], [8]⟩] ∧
    rs'.flatten.map (MRequest.content (storeOf (twoMessages.map fun b => [b]))) =
      [⟨[0, 0, 0, 0, 1, 0, 0, 0], [], [7]⟩, ⟨[0, 0, 0, 0, 1, 0, 0, 0], [], [8]⟩] ∧
    conn.progress (storeOf [twoMessages]) =
      conn'.progress (storeOf (twoMessages.map fun b => [b])) := by
  obtain ⟨conn, rs, conn', rs', hfeeds, hfeeds', hsame, hprogress⟩ :=
    chunking_irrelevant 5 twoMessages [twoMessages] (twoMessages.map fun b => [b])
      (lengthsNonneg_of_check (by decide : frameReader.check _ 12 fresh _ = true)) rfl rfl
  -- what the frame reader makes of the stream is what the connection makes of it
  have hreads : frameReader.Reads fresh [twoMessages].flatten
      ⟨.lengths [0x70, 0x65, 0x6e, 0x67] 22, [2, 0, 0]⟩
      [⟨0, MAGIC, [0, 0, 0, 0, 1, 0, 0, 0], [], [7]⟩, ⟨13, [], [0, 0, 0, 0, 1, 0, 0, 0], [], [8]⟩] :=
    reads_of_readAll (by decide : frameReader.readAll 12 _ _ = _)
  obtain ⟨conn₁, rs₁, hfeeds₁, hcontents, -⟩ := feeds_observed 5 hreads
  obtain ⟨-, rfl⟩ := hfeeds₁.unique hfeeds
  exact ⟨conn, rs₁, conn', rs', hfeeds, hfeeds', hcontents, hsame ▸ hcontents, hprogress⟩

end MgRaffle.MgServer
