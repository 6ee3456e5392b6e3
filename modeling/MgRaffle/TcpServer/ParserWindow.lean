import MgRaffle.Library.Stepping
import MgRaffle.TcpServer.Stream

open Looping Stepping
open MgRaffle.MgServer (memcpy slice)

namespace MgRaffle.TcpServer

/-- Received bytes in the chunk number `buf`, from `consume` on, `remain` of them. -/
structure Window where
  buf : ℕ
  data : List UInt8
  consume : ℕ
  remain : ℕ
  pos : 0 < remain
  fits : consume + remain ≤ data.length

/-- What a call leaves behind it: the counters have moved forward within the window, and so lie the
new handles. -/
structure Advances (buf : ℕ) (consume remainLength : ℤ) (request : SBinaryRequest) (o : Parsed) :
    Prop where
  total : o.consume + o.remainLength = consume + remainLength
  forward : consume ≤ o.consume
  left : 0 ≤ o.remainLength ∧ o.remainLength ≤ remainLength
  readSize : 0 ≤ o.parser.moduleHasReadSize
  handles : ∃ hs, o.parser.request.readBuf = request.readBuf ++ hs ∧ ∀ h ∈ hs, h.buf = buf ∧
    0 ≤ h.size ∧ consume ≤ h.offset ∧ h.offset + h.size ≤ consume + remainLength

theorem Advances.widen {buf : ℕ} {consume remainLength k : ℤ} {request : SBinaryRequest} {o : Parsed}
    (h : Advances buf (consume + k) (remainLength - k) request o) (hk : 0 ≤ k) :
    Advances buf consume remainLength request o := by
  obtain ⟨htotal, hforward, hleft, hread, hs, heq, hall⟩ := h
  refine ⟨by omega, by omega, ⟨hleft.1, by omega⟩, hread, hs, heq, ?_⟩
  intro g hg
  obtain ⟨hbuf, hsize, hoffset, hend⟩ := hall g hg
  exact ⟨hbuf, hsize, by omega, by omega⟩

/-- The call has taken bytes from the front, and no handle of them. -/
theorem Advances.read {buf : ℕ} {consume remainLength ret c r : ℤ} {request : SBinaryRequest}
    {q : SBinarySTreamParser} (htotal : c + r = consume + remainLength) (hc : consume ≤ c) (hr : 0 ≤ r)
    (hread : 0 ≤ q.moduleHasReadSize) (hsame : q.request = request) :
    Advances buf consume remainLength request ⟨ret, q, c, r⟩ := by
  refine ⟨htotal, hc, ⟨hr, ?_⟩, hread, [], ?_, fun g hg => nomatch hg⟩
  · dsimp only
    omega
  · rw [List.append_nil, ← hsame]

/-- The call has taken `k` bytes from the front, and a handle of them. -/
theorem Advances.handled {buf : ℕ} {consume remainLength ret k : ℤ} {request : SBinaryRequest}
    {q : SBinarySTreamParser} (hk : 0 ≤ k ∧ k ≤ remainLength) (hread : 0 ≤ q.moduleHasReadSize)
    (happend : q.request = request.append ⟨consume, k, buf⟩) :
    Advances buf consume remainLength request ⟨ret, q, consume + k, remainLength - k⟩ := by
  obtain ⟨hk, hle⟩ := hk
  refine ⟨?_, ?_, ⟨?_, ?_⟩, hread, [⟨consume, k, buf⟩], ?_, ?_⟩
  · dsimp only
    omega
  · dsimp only
    omega
  · dsimp only
    omega
  · dsimp only
    omega
  · rw [happend]
    rfl
  · intro g hg
    rw [List.mem_singleton.mp hg]
    exact ⟨rfl, hk, le_rfl, by dsimp only; omega⟩

namespace SBinarySTreamParser

def parseWindow (p : SBinarySTreamParser) (w : Window) : Option Parsed :=
  p.parserMsg w.buf w.data w.consume w.remain

/-- `get_request` is called after each 1. -/
def step (p : SBinarySTreamParser) (w : Window) : Option SBinarySTreamParser :=
  (p.parseWindow w).map fun o => if o.ret = 1 then o.parser.getRequest.2 else o.parser

/-- The assertion holds, and the call goes forward. -/
def MovesForward (p : SBinarySTreamParser) (w : Window) : Prop :=
  ∃ o, p.parseWindow w = some o ∧ Advances w.buf w.consume w.remain p.request o

/-- The header, if the window has the rest of it. -/
def completed (p : SBinarySTreamParser) (w : Window) : List UInt8 :=
  memcpy p.recieveHeader p.moduleHasReadSize
    (slice w.data w.consume (gHeaderSize - p.moduleHasReadSize))

/-- No header has been refused, and the message whose bytes the call comes to has no negative size. -/
def Sized (p : SBinarySTreamParser) (w : Window) : Prop :=
  match p.type with
  | .rpcHeader => p.moduleHasReadSize < gHeaderSize ∧
      (gHeaderSize - p.moduleHasReadSize < w.remain →
        RpcMessageHeader.messageSize (p.completed w) = RpcMessageHeader.sumSize (p.completed w) →
        0 ≤ RpcMessageHeader.messageSize (p.completed w))
  | .rpcMessage => 0 ≤ RpcMessageHeader.messageSize p.recieveHeader

/-- A message that has been begun is not complete. -/
structure Steady (p : SBinarySTreamParser) : Prop where
  nonneg : 0 ≤ p.moduleHasReadSize
  less : p.type = .rpcMessage → p.moduleHasReadSize = 0 ∨
    p.moduleHasReadSize < RpcMessageHeader.messageSize p.recieveHeader

variable {p : SBinarySTreamParser} {w : Window} {buf : ℕ} {data : List UInt8}
  {consume remainLength : ℤ}

/-- The bytes of a message are taken from the front of the window. -/
theorem messageCase_advances (buf : ℕ) (consume : ℤ) (h : p.Steady) (htype : p.type = .rpcMessage)
    (hr : 0 ≤ remainLength) (hsize : 0 ≤ RpcMessageHeader.messageSize p.recieveHeader) :
    Advances buf consume remainLength p.request (p.messageCase buf consume remainLength) ∧
      (p.messageCase buf consume remainLength).parser.Steady := by
  have hless := h.less htype
  have hnonneg := h.nonneg
  have hread : 0 ≤ min (RpcMessageHeader.messageSize p.recieveHeader - p.moduleHasReadSize)
      remainLength := le_min (by omega) hr
  have hread' := min_le_right (RpcMessageHeader.messageSize p.recieveHeader - p.moduleHasReadSize)
    remainLength
  unfold messageCase
  dsimp only
  split_ifs with hmore
  · have hsum := add_nonneg hnonneg hread
    exact ⟨.handled ⟨hread, hread'⟩ hsum rfl, ⟨hsum, fun _ => .inr hmore⟩⟩
  · exact ⟨.handled ⟨hread, hread'⟩ le_rfl rfl, ⟨le_rfl, fun hc => nomatch hc⟩⟩

/-- A negative size makes a handle of a negative size. -/
theorem messageCase_negative (hread : p.moduleHasReadSize = 0) {c r : ℤ}
    (hsize : RpcMessageHeader.messageSize p.recieveHeader < 0) :
    ¬ Advances buf c r p.request (p.messageCase buf consume remainLength) := by
  intro h
  obtain ⟨hs, heq, hall⟩ := h.handles
  have hread' := min_le_left (RpcMessageHeader.messageSize p.recieveHeader - p.moduleHasReadSize)
    remainLength
  have hbuf : (p.messageCase buf consume remainLength).parser.request.readBuf =
      p.request.readBuf ++ [⟨consume, min (RpcMessageHeader.messageSize p.recieveHeader -
        p.moduleHasReadSize) remainLength, buf⟩] := by
    unfold messageCase
    dsimp only
    split_ifs <;> rfl
  rw [hbuf] at heq
  have hnew := (hall _ (List.append_cancel_left heq ▸ List.mem_singleton_self _)).2.1
  dsimp only at hnew
  omega

theorem parseWindow_header (htype : p.type = .rpcHeader) :
    p.parseWindow w = p.headerCase w.buf w.data w.consume w.remain := by
  rw [parseWindow, parserMsg, htype]

theorem parseWindow_message (htype : p.type = .rpcMessage) :
    p.parseWindow w = some (p.messageCase w.buf w.consume w.remain) := by
  rw [parseWindow, parserMsg, htype]

/-- Before its end the header takes the whole window. -/
theorem parseWindow_partial (htype : p.type = .rpcHeader)
    (hshort : w.remain < gHeaderSize - p.moduleHasReadSize) : p.parseWindow w =
      some ⟨0, { p with
        recieveHeader := memcpy p.recieveHeader p.moduleHasReadSize (slice w.data w.consume w.remain)
        moduleHasReadSize := p.moduleHasReadSize + w.remain }, w.consume + w.remain, 0⟩ := by
  have hmin : min (gHeaderSize - p.moduleHasReadSize) (w.remain : ℤ) = w.remain :=
    min_eq_right hshort.le
  rw [parseWindow_header htype, headerCase, hmin, if_pos (by omega)]
  dsimp only
  rw [if_pos (by omega), sub_self]

/-- The end of the header is in the window. -/
theorem parseWindow_completed (htype : p.type = .rpcHeader)
    (hless : p.moduleHasReadSize < gHeaderSize) (hlong : gHeaderSize - p.moduleHasReadSize ≤ w.remain) :
    p.parseWindow w =
      if RpcMessageHeader.messageSize (p.completed w) ≠ RpcMessageHeader.sumSize (p.completed w) then
        some ⟨-1, { p with recieveHeader := p.completed w, moduleHasReadSize := gHeaderSize },
          w.consume + (gHeaderSize - p.moduleHasReadSize),
          w.remain - (gHeaderSize - p.moduleHasReadSize)⟩
      else if w.remain - (gHeaderSize - p.moduleHasReadSize) = 0 then
        some ⟨0, ⟨p.completed w, .rpcMessage, p.request, 0⟩,
          w.consume + (gHeaderSize - p.moduleHasReadSize),
          w.remain - (gHeaderSize - p.moduleHasReadSize)⟩
      else
        some (messageCase ⟨p.completed w, .rpcMessage, p.request, 0⟩ w.buf
          (w.consume + (gHeaderSize - p.moduleHasReadSize))
          (w.remain - (gHeaderSize - p.moduleHasReadSize))) := by
  have hmin : min (gHeaderSize - p.moduleHasReadSize) (w.remain : ℤ) =
      gHeaderSize - p.moduleHasReadSize := min_eq_left hlong
  have hsum : p.moduleHasReadSize + (gHeaderSize - p.moduleHasReadSize) = gHeaderSize := by omega
  rw [parseWindow_header htype, headerCase, hmin, if_pos hless]
  dsimp only
  rw [hsum, if_neg (lt_irrefl _)]
  rfl

theorem steady_new : new.Steady := ⟨le_rfl, fun h => nomatch h⟩

/-- Every sized call moves forward, and leaves no message complete that has been begun. -/
theorem parse_sized (h : p.Steady) (hsized : p.Sized w) :
    ∃ o, p.parseWindow w = some o ∧ Advances w.buf w.consume w.remain p.request o ∧
      o.parser.Steady := by
  have hpos : (0 : ℤ) < w.remain := by exact_mod_cast w.pos
  have hnonneg := h.nonneg
  cases htype : p.type with
  | rpcHeader =>
    rw [Sized, htype] at hsized
    obtain ⟨hless, hsize⟩ := hsized
    have hwait : p.type ≠ .rpcMessage := fun hmessage => nomatch htype.symm.trans hmessage
    by_cases hshort : w.remain < gHeaderSize - p.moduleHasReadSize
    · have hread : 0 ≤ p.moduleHasReadSize + w.remain := add_nonneg hnonneg hpos.le
      exact ⟨_, parseWindow_partial htype hshort, .read (add_zero _) (by omega) le_rfl hread rfl,
        ⟨hread, fun hmessage => absurd hmessage hwait⟩⟩
    · have hlong := not_lt.mp hshort
      have hleft : 0 ≤ (w.remain : ℤ) - (gHeaderSize - p.moduleHasReadSize) := by omega
      rw [parseWindow_completed htype hless hlong]
      by_cases hsum : RpcMessageHeader.messageSize (p.completed w) =
          RpcMessageHeader.sumSize (p.completed w)
      · have hbegun : Steady ⟨p.completed w, .rpcMessage, p.request, 0⟩ :=
          ⟨le_rfl, fun _ => .inl rfl⟩
        rw [if_neg (not_not.mpr hsum)]
        by_cases hend : (w.remain : ℤ) - (gHeaderSize - p.moduleHasReadSize) = 0
        · rw [if_pos hend]
          exact ⟨_, rfl, .read (by omega) (by omega) hleft le_rfl rfl, hbegun⟩
        · rw [if_neg hend]
          obtain ⟨hadv, hsteady⟩ := messageCase_advances w.buf
            (w.consume + (gHeaderSize - p.moduleHasReadSize)) hbegun rfl hleft
            (hsize (by omega) hsum)
          exact ⟨_, rfl, hadv.widen (by omega), hsteady⟩
      · rw [if_pos hsum]
        have hfull : 0 ≤ gHeaderSize := by decide
        exact ⟨_, rfl, .read (by omega) (by omega) hleft hfull rfl,
          ⟨hfull, fun hmessage => absurd hmessage hwait⟩⟩
  | rpcMessage =>
    rw [Sized, htype] at hsized
    rw [parseWindow_message htype]
    obtain ⟨hadv, hsteady⟩ := messageCase_advances w.buf w.consume h htype hpos.le hsized
    exact ⟨_, rfl, hadv, hsteady⟩

/-- Exactly the sized calls move forward. -/
theorem movesForward_iff (h : p.Steady) : p.MovesForward w ↔ p.Sized w := by
  constructor
  · rintro ⟨o, ho, hadv⟩
    cases htype : p.type with
    | rpcHeader =>
      rw [Sized, htype]
      have hless : p.moduleHasReadSize < gHeaderSize := by
        by_contra hfull
        rw [parseWindow_header htype, headerCase, if_neg hfull] at ho
        cases ho
      refine ⟨hless, ?_⟩
      intro hlong hsum
      by_contra hneg
      rw [parseWindow_completed htype hless hlong.le, if_neg (not_not.mpr hsum),
        if_neg (by omega), Option.some.injEq] at ho
      subst ho
      have hread : moduleHasReadSize ⟨p.completed w, .rpcMessage, p.request, 0⟩ = 0 := rfl
      exact messageCase_negative hread (not_le.mp hneg) hadv
    | rpcMessage =>
      rw [Sized, htype]
      rw [parseWindow_message htype, Option.some.injEq] at ho
      subst ho
      by_contra hneg
      have hread : p.moduleHasReadSize = 0 := by
        rcases h.less htype with hzero | hless
        · exact hzero
        · have hnonneg := h.nonneg
          omega
      exact messageCase_negative hread (not_le.mp hneg) hadv
  · intro hsized
    obtain ⟨o, ho, hadv, -⟩ := parse_sized h hsized
    exact ⟨o, ho, hadv⟩

theorem steady_step (h : p.Steady) {q : SBinarySTreamParser} (hsized : p.Sized w)
    (hstep : p.step w = some q) : q.Steady := by
  obtain ⟨o, ho, -, hsteady⟩ := parse_sized h hsized
  rw [step, ho, Option.map_some, Option.some.injEq] at hstep
  subst hstep
  split_ifs
  · exact ⟨hsteady.nonneg, hsteady.less⟩
  · exact hsteady

/-- In every run from a new parser, the calls move forward exactly as long as no header is followed
by another call once it has been refused, and no message has a negative size. -/
theorem parser_forward_iff (windows : List Window) :
    EachCall step MovesForward new windows ↔ EachCall step Sized new windows := by
  apply eachCall_iff Steady
  · intro p w q hp hsized hstep
    exact steady_step hp hsized hstep
  · intro p w hp
    exact movesForward_iff hp
  · exact steady_new

/-- A message of size -3 whose header ends with its window: the next byte is given back three times
over. -/
theorem negative_size_moves_back : ¬ ∀ windows : List Window,
    EachCall step MovesForward new windows := by
  intro h
  have hrun := h [⟨0, [253, 255, 255, 255, 0, 0, 0, 0, 253, 255, 255, 255], 0, 12, by decide,
    by decide⟩, ⟨1, [7], 0, 1, by decide, by decide⟩]
  obtain ⟨o, ho, hadv⟩ := (hrun.2 _ rfl).1
  cases ho
  have hforward := hadv.forward
  revert hforward
  decide

end SBinarySTreamParser

namespace SStream

open SBinarySTreamParser

variable {origin : Origin} {buf : ℕ} {data : List UInt8} {v v' : Splitting}
  {p : SBinarySTreamParser}

/-- A call that has no bytes left to read takes none. -/
theorem parserMsg_nothing (hsteady : p.Steady) (hsized : ∀ w : Window, w.data = data → p.Sized w)
    (hdata : data ≠ []) {consume : ℤ} {o : Parsed} (ho : p.parserMsg buf data consume 0 = some o) :
    o.ret = 0 ∨ o.remainLength = 0 := by
  cases htype : p.type with
  | rpcHeader =>
    left
    rw [parserMsg, htype] at ho
    dsimp only at ho
    rw [headerCase] at ho
    split_ifs at ho with hless
    have hmin : min (gHeaderSize - p.moduleHasReadSize) 0 = 0 := min_eq_right (by omega)
    rw [hmin] at ho
    dsimp only at ho
    rw [if_pos (by omega), Option.some.injEq] at ho
    rw [← ho]
  | rpcMessage =>
    right
    have hsize := hsized ⟨buf, data, 0, 1, Nat.one_pos, by
      have hlen := List.length_pos_of_ne_nil hdata
      omega⟩ rfl
    rw [Sized, htype] at hsize
    rw [parserMsg, htype, Option.some.injEq] at ho
    have hleft := (messageCase_advances buf consume hsteady htype le_rfl hsize).1.left
    rw [ho] at hleft
    omega

/-- Where the parser's calls are sized, the rest of a turn that is not the last one gives no bytes
back. -/
theorem parseTurn_forward (hp : v.stream.parser = some p) (hsteady : p.Steady)
    (hsized : ∀ w : Window, w.data = data → p.Sized w) (hdata : data ≠ [])
    (hwindow : 0 ≤ v.consume ∧ 0 ≤ v.remainLength ∧ v.consume + v.remainLength ≤ data.length)
    (hturn : parseTurn origin buf data v = some (.inl v')) :
    v'.stream.magicStringRecieveSize = 0 ∧ 0 ≤ v'.remainLength ∧
      v'.remainLength ≤ v.remainLength := by
  obtain ⟨hconsume, hremain, hfits⟩ := hwindow
  unfold parseTurn chooseParser at hturn
  rw [hp] at hturn
  by_cases hmagic : LittleEndian.toInt32 v.stream.magicNumber = 1
  · rw [if_pos hmagic] at hturn
    cases hturn
  rw [if_neg hmagic] at hturn
  dsimp only at hturn
  rw [hp, if_neg Bool.false_ne_true, Option.bind_some] at hturn
  obtain ⟨o, ho, hret⟩ := Option.bind_eq_some_iff.mp hturn
  have hleft : o.ret = 0 ∨ 0 ≤ o.remainLength ∧ o.remainLength ≤ v.remainLength := by
    rcases hremain.eq_or_lt with hnone | hsome
    · rw [← hnone] at ho ⊢
      have hnothing := parserMsg_nothing hsteady hsized hdata ho
      omega
    · right
      have hc : (v.consume.toNat : ℤ) = v.consume := Int.toNat_of_nonneg hconsume
      have hr : (v.remainLength.toNat : ℤ) = v.remainLength := Int.toNat_of_nonneg hremain
      obtain ⟨o', ho', hadv, -⟩ := parse_sized hsteady (hsized
        ⟨buf, data, v.consume.toNat, v.remainLength.toNat, by omega, by omega⟩ rfl)
      have hsame : o' = o := by
        rw [parseWindow, hc, hr, ho, Option.some.injEq] at ho'
        exact ho'.symm
      have hbounds := hadv.left
      rw [hsame] at hbounds
      dsimp only at hbounds
      omega
  by_cases hzero : o.ret = 0
  · rw [if_pos hzero] at hret
    cases hret
  rw [if_neg hzero] at hret
  by_cases hneg : o.ret < 0
  · rw [if_pos hneg] at hret
    cases hret
  rw [if_neg hneg, Option.some.injEq, Sum.inl.injEq] at hret
  subst hret
  exact ⟨rfl, hleft.resolve_left hzero⟩

/-- Every turn of `split_message` that is not the last one makes progress: it leaves fewer bytes, or
as many with the magic number still to come. -/
theorem splitTurn_progress (hp : v.stream.parser = some p) (hsteady : p.Steady)
    (hsized : ∀ w : Window, w.data = data → p.Sized w)
    (hwindow : 0 ≤ v.consume ∧ v.consume + v.remainLength ≤ data.length)
    (hturn : splitTurn origin buf data v = some (.inl v')) :
    v'.stream.magicStringRecieveSize = 0 ∧ 0 ≤ v'.remainLength ∧
      (v'.remainLength < v.remainLength ∨
        v'.remainLength = v.remainLength ∧ 4 ≤ v.stream.magicStringRecieveSize) := by
  obtain ⟨hconsume, hfits⟩ := hwindow
  unfold splitTurn at hturn
  by_cases hmore : 0 < v.remainLength
  swap
  · rw [if_neg hmore] at hturn
    cases hturn
  rw [if_pos hmore] at hturn
  have hdata : data ≠ [] := by
    rintro rfl
    rw [List.length_nil] at hfits
    omega
  by_cases hmagic : v.stream.magicStringRecieveSize < 4
  · -- what is missing of the magic number is read first
    have hread : 0 < min (4 - v.stream.magicStringRecieveSize) v.remainLength :=
      lt_min (by omega) hmore
    have hread' := min_le_right (4 - v.stream.magicStringRecieveSize) v.remainLength
    rw [if_pos hmagic] at hturn
    dsimp only at hturn
    by_cases hwait : (readMagic data v).stream.magicStringRecieveSize < 4
    · rw [if_pos hwait] at hturn
      cases hturn
    rw [if_neg hwait] at hturn
    obtain ⟨hzero, hnonneg, hle⟩ := parseTurn_forward (v := readMagic data v) hp hsteady hsized hdata
      ⟨by dsimp only [readMagic]; omega, by dsimp only [readMagic]; omega,
        by dsimp only [readMagic]; omega⟩ hturn
    dsimp only [readMagic] at hle
    exact ⟨hzero, hnonneg, .inl (by omega)⟩
  · rw [if_neg hmagic] at hturn
    obtain ⟨hzero, hnonneg, hle⟩ := parseTurn_forward hp hsteady hsized hdata
      ⟨hconsume, hmore.le, hfits⟩ hturn
    refine ⟨hzero, hnonneg, ?_⟩
    omega

end SStream

end MgRaffle.TcpServer
