import MgRaffle.MgServer.Footprint
import MgRaffle.MgServer.RpcParse

namespace MgRaffle.MgServer
open LittleEndian Stepping WireFormat

def MAX_CONN_BUF : ℕ := 1024

/-- What `client.cpp` sends for a header and a request. -/
def clientSend (header : RpcHeader) (req : HelloReq) : Message := ⟨header.serialize, req.serialize⟩

/-- What `client.cpp` makes of the bytes that its only `recv` has returned: it stops where there are
none, and otherwise reads two messages out of a buffer that was filled with zeros. `none` also
stands for lengths that lead out of the buffer. -/
def clientRead (wire : Reader) (received : List UInt8) : Option (RpcHeader × HelloRes) :=
  let buf := received ++ List.replicate (MAX_CONN_BUF - received.length) 0
  let headerLength := toInt32 (buf.drop 4)
  let bodyLength := toInt32 (buf.drop 8)
  if received ≠ [] ∧ 0 ≤ headerLength ∧ 0 ≤ bodyLength ∧
      12 + headerLength + bodyLength ≤ MAX_CONN_BUF then
    let rest := buf.drop 12
    some ((RpcHeader.parse wire (rest.take headerLength.toNat)).1,
      (HelloRes.parse wire ((rest.drop headerLength.toNat).take bodyLength.toNat)).1)
  else none

section Reading

variable {wire : Reader} {h : RpcHeader} {res : HelloRes}

theorem toInt32_lengths (hl bl : ℕ) (rest : List UInt8) (hlt : hl < 2147483648)
    (blt : bl < 2147483648) :
    toInt32 ((MAGIC ++ (MLengthHeader.encode hl bl ++ rest)).drop 4) = hl ∧
      toInt32 ((MAGIC ++ (MLengthHeader.encode hl bl ++ rest)).drop 8) = bl := by
  have h4 : (MAGIC ++ (MLengthHeader.encode hl bl ++ rest)).drop 4 =
      ofNat32 hl ++ (ofNat32 bl ++ rest) := by
    rw [MLengthHeader.encode, List.append_assoc]
    rfl
  have h8 : (MAGIC ++ (MLengthHeader.encode hl bl ++ rest)).drop 8 = ofNat32 bl ++ rest := by
    rw [show (8 : ℕ) = 4 + 4 from rfl, ← List.drop_drop, h4]
    rfl
  rw [h4, h8]
  exact ⟨toInt32_ofNat32 hlt _, toInt32_ofNat32 blt _⟩

/-- The client reads back what the server wrote. -/
theorem clientRead_responseBytes (hv : h.Valid wire) (hres : res.Valid wire)
    (hfits : (responseBytes h res).length ≤ MAX_CONN_BUF) :
    clientRead wire (responseBytes h res) = some (h, res) := by
  have hne : responseBytes h res ≠ [] := by simp [responseBytes, MAGIC]
  have hlen := length_responseBytes h res
  rw [hlen] at hfits
  -- behind the response the buffer of the client is full of zeros
  generalize hz : List.replicate (MAX_CONN_BUF - (responseBytes h res).length) (0 : UInt8) = zeros
  have hbuf : responseBytes h res ++ zeros = MAGIC ++
      (MLengthHeader.encode h.byteSizeLong res.byteSizeLong ++
        (h.serialize ++ (res.serialize ++ zeros))) := by
    simp only [responseBytes, List.append_assoc]
  rw [MAX_CONN_BUF] at hfits
  obtain ⟨hhl, hbl⟩ := toInt32_lengths h.byteSizeLong res.byteSizeLong
    (h.serialize ++ (res.serialize ++ zeros)) (by omega) (by omega)
  have hrest : (responseBytes h res ++ zeros).drop 12 = h.serialize ++ (res.serialize ++ zeros) := by
    rw [hbuf]
    rfl
  have hheader : RpcHeader.parse wire h.serialize = (h, .limit) :=
    RpcHeader.message.parse_serialize_new hv
  have hbody : HelloRes.parse wire res.serialize = (res, .limit) :=
    HelloRes.message.parse_serialize_new hres
  rw [clientRead]
  dsimp only
  rw [hz, hrest, hbuf, hhl, hbl, Int.toNat_natCast, Int.toNat_natCast, ← length_serialize,
    ← HelloRes.length_serialize, List.take_left, List.drop_left, List.take_left, hheader, hbody,
    length_serialize, HelloRes.length_serialize, if_pos ⟨hne, by omega, by omega, by
      rw [MAX_CONN_BUF]
      omega⟩]

/-- Where an end of the message is missing, and zeros stand in its place, the name is another
one. -/
theorem HelloRes.name_of_cut (wire : Reader) {k : ℕ} (hk : k < 7) :
    (HelloRes.parse wire ((helloTask .new).serialize.take k ++ List.replicate (7 - k) 0)).1.name ≠
      (helloTask .new).name := by
  rcases Nat.lt_or_ge k 2 with hk2 | hk2
  · have hzero : HelloRes.schema.case 0 = .unusual := rfl
    have hten : HelloRes.schema.case 10 = .string HelloRes.getName HelloRes.setName := rfl
    interval_cases k
    · have hparse : HelloRes.parse wire (0 :: List.replicate 6 0) = (.new, .tag 0) :=
        parse_zero hzero _ _
      have hname := congrArg (fun p => p.1.name) hparse
      intro h
      cases hname.symm.trans h
    · -- a string of no letters, and zeros behind it
      have hempty := wire.text_ascii (s := []) (by simp) (by simp)
      have hturn := turn_encode (.string (by norm_num) hten hempty) HelloRes.new (List.replicate 5 0)
      have hparse : HelloRes.parse wire (0x0a :: List.replicate 6 0) = (⟨some [], []⟩, .tag 0) :=
        (parse_next hturn).trans (parse_zero hzero _ _)
      have hname := congrArg (fun p => p.1.name) hparse
      intro h
      cases hname.symm.trans h
  · -- the length says five, and the zeros are letters
    obtain ⟨l, rfl⟩ : ∃ l, k = l + 2 := ⟨k - 2, by omega⟩
    have hl : l < 5 := by omega
    have hvalid : HelloRes.Valid wire
        ⟨some ([0x77, 0x6f, 0x72, 0x6c, 0x64].take l ++ List.replicate (5 - l) 0), []⟩ := by
      refine ⟨fun s hs => ?_, [], by simp, rfl⟩
      cases hs
      have hworld : ∀ b ∈ [0x77, 0x6f, 0x72, 0x6c, 0x64], b < (128 : UInt8) := by simp
      apply wire.text_ascii
      · rw [List.length_append, List.length_take, List.length_replicate]
        exact (Nat.add_le_add (Nat.min_le_left _ _) (Nat.sub_le _ _)).trans (by omega)
      · intro b hb
        rcases List.mem_append.mp hb with hb | hb
        · exact hworld b (List.mem_of_mem_take hb)
        · rw [List.eq_of_mem_replicate hb]
          decide
    have hparse := HelloRes.message.parse_serialize_new hvalid
    have hbytes : (helloTask .new).serialize.take (l + 2) ++ List.replicate (7 - (l + 2)) 0 =
        HelloRes.serialize
          ⟨some ([0x77, 0x6f, 0x72, 0x6c, 0x64].take l ++ List.replicate (5 - l) 0), []⟩ := by
      interval_cases l <;> rfl
    have hname := congrArg (fun p => p.1.name) hparse
    rw [hbytes]
    intro h
    have hsame := hname.symm.trans h
    interval_cases l <;> cases hsame

theorem getD_filled (bs : List UInt8) (c m j i : ℕ) :
    ((bs.take c ++ List.replicate m 0).drop j).getD i 0 =
      if j + i < c then (bs.drop j).getD i 0 else 0 := by
  simp only [List.getD_eq_getElem?_getD, List.getElem?_drop]
  by_cases hc : j + i < c
  · rw [if_pos hc]
    by_cases hlen : j + i < bs.length
    · rw [List.getElem?_append_left (by rw [List.length_take]; omega), List.getElem?_take_of_lt hc]
    · rw [List.getElem?_append_right (by rw [List.length_take]; omega), List.getElem?_replicate,
        List.getElem?_eq_none (by omega)]
      split_ifs <;> rfl
  · rw [if_neg hc, List.getElem?_append_right (by rw [List.length_take]; omega),
      List.getElem?_replicate]
    split_ifs <;> rfl

/-- The lengths are read as they were written once one byte of the second one is there. -/
theorem lengths_of_cut {c : ℕ} (hc : 8 < c) (hhl : h.byteSizeLong < 2147483648) (m : ℕ) :
    toInt32 (((responseBytes h (helloTask .new)).take c ++ List.replicate m 0).drop 4) =
        h.byteSizeLong ∧
      toInt32 (((responseBytes h (helloTask .new)).take c ++ List.replicate m 0).drop 8) = 7 := by
  obtain ⟨hheader, hbody⟩ := toInt32_lengths h.byteSizeLong 7
    (h.serialize ++ (helloTask .new).serialize) hhl (by norm_num)
  constructor
  · refine (toInt32_congr fun i hi => ?_).trans hheader
    rw [getD_filled, if_pos (by omega)]
    rfl
  · refine (toInt32_congr fun i hi => ?_).trans hbody
    rw [getD_filled]
    split_ifs with hlt
    · rfl
    · -- of the four bytes only the first is not a zero
      interval_cases i
      · omega
      all_goals rfl

/-- What is then read as the response. -/
theorem body_of_cut {c m : ℕ} (hc : c < (responseBytes h (helloTask .new)).length)
    (hm : (responseBytes h (helloTask .new)).length ≤ c + m) :
    ((((responseBytes h (helloTask .new)).take c ++ List.replicate m 0).drop 12).drop
      h.byteSizeLong).take 7 =
      (helloTask .new).serialize.take (c - (12 + h.byteSizeLong)) ++
        List.replicate (7 - (c - (12 + h.byteSizeLong))) 0 := by
  have hbody : (responseBytes h (helloTask .new)).drop (12 + h.byteSizeLong) =
      (helloTask .new).serialize := by
    rw [← List.drop_drop, ← length_serialize]
    exact List.drop_left
  have hlen : (responseBytes h (helloTask .new)).length = 12 + h.byteSizeLong + 7 :=
    length_responseBytes h (helloTask .new)
  have hseven : (helloTask .new).serialize.length = 7 := rfl
  rw [List.drop_drop, List.drop_append, List.drop_take, hbody, List.take_append, List.take_take,
    List.drop_replicate, List.take_replicate]
  congr 2
  · omega
  · rw [List.length_take, List.length_take, hlen, hseven]
    omega

/-- A response that the client has not received to its end it does not read as "world". -/
theorem clientRead_of_cut {c : ℕ} (hc : c < (responseBytes h (helloTask .new)).length)
    (hfits : (responseBytes h (helloTask .new)).length ≤ MAX_CONN_BUF) :
    ∀ x ∈ clientRead wire ((responseBytes h (helloTask .new)).take c),
      x.2.name ≠ (helloTask .new).name := by
  have hlen : (responseBytes h (helloTask .new)).length = 12 + h.byteSizeLong + 7 :=
    length_responseBytes h (helloTask .new)
  rw [MAX_CONN_BUF] at hfits
  intro x hx
  have hcut : ((responseBytes h (helloTask .new)).take c).length = c := by
    rw [List.length_take]
    omega
  rw [clientRead, hcut] at hx
  dsimp only at hx
  split_ifs at hx with hcond
  swap
  · cases hx
  cases hx
  by_cases hc8 : 8 < c
  · obtain ⟨hheader, hbody⟩ := lengths_of_cut (h := h) hc8 (by omega) (MAX_CONN_BUF - c)
    rw [hheader, hbody, Int.toNat_natCast, show (7 : ℤ).toNat = 7 from rfl,
      body_of_cut hc (by rw [MAX_CONN_BUF]; omega)]
    exact HelloRes.name_of_cut wire (by omega)
  · -- nothing of the second length is there
    have hbody : toInt32 (((responseBytes h (helloTask .new)).take c ++
        List.replicate (MAX_CONN_BUF - c) 0).drop 8) = 0 := by
      have hzero : toInt32 [] = 0 := rfl
      rw [← hzero]
      apply toInt32_congr
      intro i _
      rw [getD_filled, if_neg (by omega)]
      rfl
    rw [hbody, Int.toNat_zero, List.take_zero]
    have hparse : HelloRes.parse wire [] = (.new, .limit) := parse_nil
    rw [hparse]
    exact fun h => by cases h

end Reading

section Answering

variable {resp : List UInt8} {s t : Output} {e : OutputEvent}

/-- The connection issues one response, and then only flushes its queue. -/
def Answers (resp : List UInt8) (s : Output) : OutputEvent → Prop
  | .respond bytes _ => bytes = resp ∧ s.issued = []
  | _ => True

/-- Of the one response what is not accepted is queued, behind a single guard. -/
structure Answering (resp : List UInt8) (s : Output) : Prop where
  intact : s.closed = false → Intact s
  single : s.sendBuf.bufList.length ≤ 1
  fresh : s.issued = [] → s.sendBuf = .new
  issued : s.issued = [] ∨ s.issued = resp

theorem length_queuedSend {r r' : MReadBuf} {size : ℤ} {o : SysResult} {g : Option MBufferGuard}
    (h : queuedSend r size o = some (g, r')) : r'.bufList.length ≤ r.bufList.length := by
  rw [← (perm_queuedSend h).length_eq, List.length_append]
  omega

theorem length_turn (s : Output) (o : SysResult) :
    (s.turn o).sendBuf.bufList.length ≤ s.sendBuf.bufList.length := by
  unfold Output.turn
  cases hnext : s.sendBuf.next with
  | none => exact le_rfl
  | some p =>
    obtain ⟨data, r⟩ := p
    dsimp only
    cases hq : queuedSend r data.size o with
    | none => exact le_rfl
    | some q =>
      have hle := length_queuedSend hq
      rwa [MReadBuf.bufList_next hnext] at hle

theorem issued_turn (s : Output) (o : SysResult) : (s.turn o).issued = s.issued := by
  unfold Output.turn
  split
  · rfl
  · split <;> rfl

theorem turn_of_new (o : SysResult) (h : s.sendBuf = .new) : (s.turn o).sendBuf = .new := by
  have hnext : s.sendBuf.next = none := by
    rw [h]
    rfl
  unfold Output.turn
  rw [hnext]
  exact h

theorem respond_issued (s : Output) (bytes : List UInt8) (o : SysResult) :
    (s.respond bytes o).issued = s.issued ++ bytes := by
  unfold Output.respond Output.queue
  dsimp only
  split
  · rfl
  · split_ifs <;> rfl

theorem length_respond (s : Output) (bytes : List UInt8) (o : SysResult) :
    (s.respond bytes o).sendBuf.bufList.length ≤ s.sendBuf.bufList.length + 1 := by
  unfold Output.respond Output.queue
  dsimp only
  split
  · exact Nat.le_succ _
  · split_ifs
    · show (s.sendBuf.append _).bufList.length ≤ _
      rw [MReadBuf.append, List.length_append, List.length_singleton]
    · exact Nat.le_succ _

theorem Answering.orderly (h : Answering resp s) (hc : Answers resp s e) : Orderly s e := by
  cases e with
  | respond bytes o =>
    intro k _
    rw [h.fresh hc.2]
    exact ⟨fun _ => rfl, fun _ => rfl⟩
  | sendBuf => trivial
  | turn o => exact fun _ _ => h.single

theorem output_cases (h : s.step e = some t) :
    (∃ bytes o, e = .respond bytes o ∧ t = s.respond bytes o) ∨
    (e = .sendBuf ∧ t = { s with sending := true }) ∨ ∃ o, e = .turn o ∧ t = s.turn o := by
  unfold Output.step at h
  by_cases hcl : s.closed = true
  · rw [if_pos hcl] at h
    cases h
  rw [if_neg hcl] at h
  cases e with
  | respond bytes o =>
    dsimp only at h
    split_ifs at h
    cases h
    exact Or.inl ⟨bytes, o, rfl, rfl⟩
  | sendBuf =>
    dsimp only at h
    split_ifs at h
    cases h
    exact Or.inr (Or.inl ⟨rfl, rfl⟩)
  | turn o =>
    dsimp only at h
    split_ifs at h
    cases h
    exact Or.inr (Or.inr ⟨o, rfl, rfl⟩)

theorem Answering.step (hne : resp ≠ []) (h : Answering resp s) (hc : Answers resp s e)
    (hstep : s.step e = some t) : Answering resp t := by
  have hintact := fun hopen => intact_step h.intact (h.orderly hc) hstep hopen
  obtain ⟨bytes, o, rfl, rfl⟩ | ⟨rfl, rfl⟩ | ⟨o, rfl, rfl⟩ := output_cases hstep
  · obtain ⟨rfl, hnil⟩ := hc
    have hissued : (s.respond bytes o).issued = bytes := by rw [respond_issued, hnil, List.nil_append]
    have hlen := length_respond s bytes o
    rw [h.fresh hnil] at hlen
    exact ⟨hintact, hlen, fun hnew => absurd (hissued.symm.trans hnew) hne, Or.inr hissued⟩
  · exact ⟨hintact, h.single, h.fresh, h.issued⟩
  · refine ⟨hintact, (length_turn s o).trans h.single, ?_, ?_⟩
    · intro hnil
      rw [issued_turn] at hnil
      exact turn_of_new o (h.fresh hnil)
    · rw [issued_turn]
      exact h.issued

theorem answering_new (resp : List UInt8) : Answering resp .new :=
  ⟨fun _ => intact_new, Nat.zero_le _, fun _ => rfl, Or.inl rfl⟩

/-- What an open connection's socket has accepted is a beginning of the response, and all of it
once the response is issued and nothing of it is left. -/
theorem accepted_of_open (hne : resp ≠ []) (h : Reachable Output.step (Answers resp) .new s)
    (hopen : s.closed = false) :
    s.accepted <+: resp ∧ (s.issued ≠ [] → s.pending = [] → s.accepted = resp) := by
  have hinv : Answering resp s := Reachable.invariant (Answering resp) (answering_new resp)
    (fun s e t hs hc hstep => hs.step hne hc hstep) h
  have hdel := (hinv.intact hopen).delivered
  refine ⟨?_, fun hissued hdrained => ?_⟩
  · rcases hinv.issued with hnil | hresp
    · rw [hnil] at hdel
      rw [(List.append_eq_nil_iff.mp hdel).1]
      exact List.nil_prefix
    · exact ⟨s.pending, hdel.trans hresp⟩
  · rwa [hdrained, List.append_nil, hinv.issued.resolve_left hissued] at hdel

end Answering

section Exchange

variable {wire : Reader} {h : RpcHeader}

theorem func_of_getFunc (hf : h.getFunc = HELLO) : h.func = some HELLO := by
  cases hh : h.func with
  | none => simp [RpcHeader.getFunc, hh, HELLO] at hf
  | some s =>
    rw [RpcHeader.getFunc, hh, Option.getD_some] at hf
    rw [hf]

theorem byteSizeLong_le (hf : h.getFunc = HELLO) : h.byteSizeLong ≤ 19 + h.echoed := by
  have hfs : stringSize HELLO = 6 := rfl
  have htype : (h.type.map fun v => 1 + enumSize v).getD 0 ≤ 11 := by
    cases h.type with
    | none => exact Nat.zero_le _
    | some v =>
      have := Varint.size_le 10 (enumValue v)
      simp only [Option.map_some, Option.getD_some, enumSize]
      omega
  simp only [RpcHeader.byteSizeLong, RpcHeader.echoed, func_of_getFunc hf, Option.map_some,
    Option.getD_some, hfs]
  omega

/-- The response to a header that can be sent is one that can be sent. -/
theorem RpcHeader.Valid.respond (hv : h.Valid wire) :
    { h with type := some RPC_TYPE_RPC_RESPONSE }.Valid wire :=
  { hv with type := fun v hv => by cases hv; simp [RPC_TYPE_RPC_RESPONSE] }

theorem valid_helloTask (wire : Reader) : (helloTask .new).Valid wire where
  name s hs := by
    cases hs
    exact wire.text_ascii (by decide) (by simp)
  unknown := ⟨[], by simp, rfl⟩

/-- A request for "hello" that arrives in any pieces makes the server issue one response. Of that
an open connection's socket has accepted a beginning, and in the end all of it; and of whatever
beginning the client's only `recv` returns, the client reads the header back as a response, and the
name "world", exactly if it is the whole response. -/
theorem exchange (wire : Reader) (fd : ℤ) (h : RpcHeader) (req : HelloReq)
    (chunks : List (List UInt8)) (hv : h.Valid wire) (hf : h.getFunc = HELLO)
    (hecho : h.echoed ≤ 996) (hreq : req.serialize ≠ []) (hlt : req.serialize.length < 2147483648)
    (hcut : chunks.flatten = (clientSend h req).encode) :
    ∃ conn rs r resp, Feeds 0 (.new fd) chunks conn rs ∧ rs.flatten = [r] ∧
      doRequest (fun bs => (RpcHeader.parse wire bs).1) (storeOf chunks) r = some resp ∧
      ∀ s, Reachable Output.step (Answers resp) .new s → s.closed = false →
        s.accepted <+: resp ∧ (s.issued ≠ [] → s.pending = [] → s.accepted = resp) ∧
        ∀ received, received ≠ [] → received <+: s.accepted →
          (clientRead wire received =
            some ({ h with type := some RPC_TYPE_RPC_RESPONSE }, helloTask .new) ↔
              received = resp) := by
  have hheader : (clientSend h req).header.length < 2147483648 := by
    have hle := byteSizeLong_le hf
    rw [clientSend, length_serialize]
    omega
  -- the pieces make up one frame, and the parser cuts one request
  obtain ⟨f, hr, hmsg⟩ := visits_first hheader hlt (by rwa [List.append_nil])
  rw [List.append_nil, ← hcut] at hr
  obtain ⟨conn, rs, hfeeds, -, hreqs⟩ := feeds_fresh fd hr
  obtain ⟨r, hone, hrs⟩ : ∃ r, IsRequest (storeOf chunks) (baseOf chunks) r f ∧ rs.flatten = [r] := by
    obtain ⟨r, tail, hone, hnil, hrs⟩ := List.forall₂_cons_right_iff.mp hreqs
    rw [List.forall₂_nil_right_iff.mp hnil] at hrs
    exact ⟨r, hone, hrs⟩
  have hbytes : r.rpcHeaderBuf.bounded (storeOf chunks) = h.serialize := by
    rw [hone.header.bounded_eq]
    exact congrArg Message.header hmsg
  have hparse : RpcHeader.parse wire h.serialize = (h, .limit) :=
    RpcHeader.message.parse_serialize_new hv
  refine ⟨conn, rs, r, responseBytes { h with type := some RPC_TYPE_RPC_RESPONSE } (helloTask .new),
    hfeeds, hrs, ?_, ?_⟩
  · rw [doRequest, hbytes, hparse, if_pos hf]
  intro s hs hopen
  have hlen := length_response hf
  have hfits : (responseBytes { h with type := some RPC_TYPE_RPC_RESPONSE } (helloTask .new)).length ≤
      MAX_CONN_BUF := by
    rw [hlen, MAX_CONN_BUF]
    omega
  have hne : responseBytes { h with type := some RPC_TYPE_RPC_RESPONSE } (helloTask .new) ≠ [] := by
    apply List.ne_nil_of_length_pos
    omega
  obtain ⟨hbegins, hall⟩ := accepted_of_open hne hs hopen
  refine ⟨hbegins, hall, fun received _ hreceived => ⟨fun hread => ?_, fun hwhole => ?_⟩⟩
  · -- whatever is short of the response is read as another name
    have htake := List.prefix_iff_eq_take.mp (hreceived.trans hbegins)
    by_contra hshort
    have hcut := (hreceived.trans hbegins).length_le.lt_of_ne
      fun heq => hshort ((hreceived.trans hbegins).eq_of_length heq)
    rw [htake] at hread
    exact clientRead_of_cut hcut hfits _ hread rfl
  · rw [hwhole]
    exact clientRead_responseBytes hv.respond (valid_helloTask wire) hfits

/-- The header of `client.cpp`, and its request. -/
def clientHeader : RpcHeader := ⟨some RPC_TYPE_RPC_REQUEST, some HELLO, none, []⟩

def clientReq : HelloReq := ⟨some HELLO, []⟩

theorem valid_clientHeader (wire : Reader) : clientHeader.Valid wire where
  type v hv := by
    cases hv
    simp [RPC_TYPE_RPC_REQUEST]
  func s hs := by
    cases hs
    exact wire.text_ascii (by decide) (by simp [HELLO])
  timeout s hs := by cases hs
  unknown := ⟨[], by simp, rfl⟩

/-- The exchange of `client.cpp`, with its message cut after the magic bytes. -/
theorem exchange_client : ∃ conn rs r resp,
    Feeds 0 (.new 7) [MAGIC, (clientSend clientHeader clientReq).encode.drop 4] conn rs ∧
    rs.flatten = [r] ∧
    doRequest (fun bs => (RpcHeader.parse plain bs).1)
      (storeOf [MAGIC, (clientSend clientHeader clientReq).encode.drop 4]) r = some resp ∧
    ∀ s, Reachable Output.step (Answers resp) .new s → s.closed = false →
      s.accepted <+: resp ∧ (s.issued ≠ [] → s.pending = [] → s.accepted = resp) ∧
      ∀ received, received ≠ [] → received <+: s.accepted →
        (clientRead plain received =
          some (⟨some RPC_TYPE_RPC_RESPONSE, some HELLO, none, []⟩, helloTask .new) ↔
            received = resp) :=
  exchange plain 7 clientHeader clientReq _ (valid_clientHeader plain) rfl (by decide) (by decide)
    (by decide) rfl

end Exchange

end MgRaffle.MgServer
