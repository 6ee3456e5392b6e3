import MgRaffle.MgServer.Chunking

namespace MgRaffle.MgServer
open Collector Stepping

/-- In the course of feeding the chunks a call is in the state `m`, and `qs` are the requests
produced so far. -/
def Underway (fd : ℤ) (chunks : List (List UInt8)) (m : ParseState) (qs : List MRequest) : Prop :=
  ∃ before chunk after conn rs, chunks = before ++ chunk :: after ∧
    Feeds 0 (.new fd) before conn rs ∧
    Reaches ParseState.step (.feed conn before.length chunk) m ∧ qs = rs.flatten ++ m.reqs

/-- Steps and calls keep a relation between the connection and the requests produced so far. -/
def Kept (P : MConnection → List MRequest → Prop) : Prop :=
  ∀ (m m' : ParseState) qs, m.step = some m' → P m.conn (qs ++ m.reqs) → P m'.conn (qs ++ m'.reqs)

section Keeping

variable {P : MConnection → List MRequest → Prop} {fd : ℤ} {chunks cs : List (List UInt8)}
  {m m' : ParseState} {qs : List MRequest} {conn conn' : MConnection} {n : ℕ}
  {rs : List (List MRequest)}

theorem Kept.reaches (h : Kept P) (hreach : Reaches ParseState.step m m')
    (hm : P m.conn (qs ++ m.reqs)) : P m'.conn (qs ++ m'.reqs) :=
  Reaches.invariant (fun m => P m.conn (qs ++ m.reqs)) (fun m m' hm hstep => h m m' qs hstep hm) hm
    hreach

theorem Kept.feeds (h : Kept P) (hfeeds : Feeds n conn cs conn' rs) (hconn : P conn qs) :
    P conn' (qs ++ rs.flatten) := by
  induction hfeeds generalizing qs with
  | nil => simpa using hconn
  | @cons n conn conn' chunk chunks s rs hcall _ ih =>
    have hs : P s.conn (qs ++ s.reqs) := h.reaches hcall.1 (by simpa [ParseState.feed,
      ParseState.call] using hconn)
    simpa [List.append_assoc] using ih hs

/-- What is kept holds in the end once it holds underway. -/
theorem Kept.final (h : Kept P) (hu : Underway fd chunks m qs) (hm : P m.conn qs)
    (hfeeds : Feeds 0 (.new fd) chunks conn rs) : P conn rs.flatten := by
  obtain ⟨before, chunk, after, conn₀, rs₀, rfl, hbefore, hreach, rfl⟩ := hu
  obtain ⟨conn₁, rs₁, rs₂, h₁, h₂, rfl⟩ := hfeeds.split
  obtain ⟨rfl, rfl⟩ := hbefore.unique h₁
  rw [Nat.zero_add] at h₂
  cases h₂ with
  | @cons _ _ _ _ _ s rs hcall hrest =>
    have hs : P s.conn (rs₀.flatten ++ s.reqs) := h.reaches (hcall.of_reaches hreach).1 hm
    simpa [List.append_assoc] using h.feeds hrest hs

end Keeping

section Steps

variable {m m' : ParseState}

/-- The request of the parser, with what this iteration adds to its body. -/
def ParseState.bodyReq (m : ParseState) : MRequest :=
  { m.conn.theParser.req with
    rpcBodyBuf := m.conn.theParser.req.rpcBodyBuf.append (.new m.id m.buf m.remain) }

theorem rpcContentCase_reqs (m : ParseState) :
    m.rpcContentCase.reqs = m.reqs ∨ m.rpcContentCase.reqs = m.reqs ++ [m.bodyReq] := by
  unfold ParseState.rpcContentCase
  dsimp only
  split_ifs
  · exact Or.inl rfl
  · exact Or.inr rfl

theorem step_reqs (h : m.step = some m') : ∃ o, m'.reqs = m.reqs ++ o := by
  cases ParseState.stepped_of_step h with
  | rpcContent =>
    rcases rpcContentCase_reqs m with hreqs | hreqs
    · exact ⟨[], by rw [hreqs, List.append_nil]⟩
    · exact ⟨[m.bodyReq], hreqs⟩
  | _ => exact ⟨[], (List.append_nil _).symm⟩

/-- What has been queued stays at the front. -/
theorem kept_queued (qs₀ : List MRequest) : Kept fun _ qs => qs₀ <+: qs := by
  intro m m' qs hstep hpre
  obtain ⟨o, ho⟩ := step_reqs hstep
  rw [ho, ← List.append_assoc]
  exact hpre.trans (List.prefix_append _ _)

/-- The request number `n` has, or will have, the header buffer `hb`. -/
def HeaderIs (n : ℕ) (hb : MReadBuf) (conn : MConnection) (qs : List MRequest) : Prop :=
  (qs.length = n ∧ conn.parseType = .rpcContent ∧ conn.theParser.req.rpcHeaderBuf = hb) ∨
    ∃ r, qs[n]? = some r ∧ r.rpcHeaderBuf = hb

/-- Once the header of a request is complete nothing is added to it. -/
theorem kept_header (n : ℕ) (hb : MReadBuf) : Kept (HeaderIs n hb) := by
  intro m m' qs hstep h
  rcases h with ⟨hn, htype, hhb⟩ | ⟨r, hr, hhb⟩
  · cases ParseState.stepped_of_step hstep with
    | magic _ _ hmagic | header _ _ hmagic | rpcHeader _ _ hmagic | spin _ _ hmagic =>
      rw [htype] at hmagic
      cases hmagic
    | enter | leave => exact Or.inl ⟨hn, htype, hhb⟩
    | rpcContent =>
      unfold ParseState.rpcContentCase
      dsimp only
      split_ifs
      · exact Or.inl ⟨hn, htype, hhb⟩
      · right
        refine ⟨m.bodyReq, ?_, hhb⟩
        rw [← List.append_assoc, List.getElem?_append_right hn.le, hn, Nat.sub_self]
        rfl
  · obtain ⟨o, ho⟩ := step_reqs hstep
    obtain ⟨hlt, -⟩ := List.getElem?_eq_some_iff.mp hr
    refine Or.inr ⟨r, ?_, hhb⟩
    rw [ho, ← List.append_assoc, List.getElem?_append_left hlt, hr]

end Steps

section Reading

variable {fd : ℤ} {chunks : List (List UInt8)} {s : State Part UInt8} {rest : List UInt8}
  {fs : List Frame}

/-- The chunk in which a non-empty rest of the stream begins. -/
theorem exists_chunk (h : rest <:+ chunks.flatten) (hne : rest ≠ []) : ∃ before chunk after zs,
    chunks = before ++ chunk :: after ∧ rest = zs ++ after.flatten ∧ zs ≠ [] ∧ zs <:+ chunk := by
  induction chunks with
  | nil => exact absurd (List.suffix_nil.mp h) hne
  | cons c cs ih =>
    rw [List.flatten_cons] at h
    by_cases hlen : rest.length ≤ cs.flatten.length
    · have hcs := List.suffix_of_suffix_length_le h (List.suffix_append _ _) hlen
      obtain ⟨before, chunk, after, zs, rfl, hrest, hzs, hchunk⟩ := ih hcs
      exact ⟨c :: before, chunk, after, zs, rfl, hrest, hzs, hchunk⟩
    · -- the rest begins in this very chunk
      obtain ⟨zs, rfl⟩ := List.suffix_of_suffix_length_le (List.suffix_append c cs.flatten) h
        (by omega)
      refine ⟨[], c, cs, zs, rfl, rfl, ?_, ?_⟩
      · rintro rfl
        simp at hlen
      · obtain ⟨ys, hys⟩ := h
        rw [← List.append_assoc] at hys
        exact ⟨ys, List.append_cancel_right hys⟩

/-- A state of the frame reader with bytes left to read is one of the loops, underway. -/
theorem underway_of_visits (fd : ℤ) (hv : frameReader.Visits fresh chunks.flatten s rest fs)
    (hne : rest ≠ []) : ∃ m qs zs o, Underway fd chunks m qs ∧
      Sim (storeOf chunks) (baseOf chunks) m s zs o ∧ zs ≠ [] ∧ m.loop = s.part.loop ∧
      List.Forall₂ (IsRequest (storeOf chunks) (baseOf chunks)) qs fs := by
  obtain ⟨before, chunk, after, zs, hch, rfl, hzs, hchunk⟩ := exists_chunk hv.suffix hne
  have hflat : chunks.flatten = before.flatten ++ (chunk ++ after.flatten) := by
    rw [hch, List.flatten_append, List.flatten_cons]
  rw [hflat] at hv
  obtain ⟨u, o₁, o₂, hr, hv', rfl⟩ := hv.split (by
    obtain ⟨ys, rfl⟩ := hchunk
    exact ⟨ys, by rw [List.append_assoc]⟩)
  have hch' : chunks = [] ++ (before ++ chunk :: after) := hch
  obtain ⟨conn, rs, hfeeds, hrest, hreqs⟩ :=
    feeds_of_reads hch' (atRest_fresh : AtRest _ (.new fd) _) rfl hr
  have hbase : baseOf chunks before.length = position u := by
    have := position_of_visits hr trivial
    rw [baseOf_before hch]
    simpa [position, fresh, inProgress, Part.start] using this
  have hsim := sim_feed hrest (storeOf_before hch) hbase
  obtain ⟨m, hreach, -, hm⟩ := reaches_of_visits (hv'.restrict hzs) hsim
  rw [List.nil_append] at hm
  -- one more step may be due to hand the part to its loop
  by_cases hl : m.loop = s.part.loop
  · exact ⟨m, _, zs, o₂, ⟨before, chunk, after, conn, rs, hch, hfeeds, hreach, rfl⟩, hm, hzs, hl,
      List.rel_append hreqs hm.reqs⟩
  · obtain ⟨m', hstep, -, hm', -, hl', hs⟩ := sim_enter hm hzs hl
    exact ⟨m', _, zs, o₂, ⟨before, chunk, after, conn, rs, hch, hfeeds,
      hreach.trans (Reaches.next hstep .refl), rfl⟩, hm', hzs, hl'.trans hs.symm,
      List.rel_append hreqs hm'.reqs⟩

variable {conn : MConnection} {rs : List (List MRequest)} {mg ls hd : List UInt8} {start : ℕ}

/-- What the requests of a feed show, when each chunk lies in its own buffer. -/
def produced (chunks : List (List UInt8)) (rs : List (List MRequest)) : List Content :=
  rs.flatten.map (MRequest.content (storeOf chunks))

theorem produced_of_reads (hfeeds : Feeds 0 (.new fd) chunks conn rs)
    (hr : frameReader.Reads fresh chunks.flatten s fs) :
    produced chunks rs = fs.map Frame.content := by
  obtain ⟨conn', rs', hfeeds', hreqs, -⟩ := feeds_observed fd hr
  obtain ⟨-, rfl⟩ := hfeeds.unique hfeeds'
  exact hreqs

/-- The frames read on the way are among the requests produced in the end. -/
theorem frames_produced (hfeeds : Feeds 0 (.new fd) chunks conn rs)
    (hv : frameReader.Visits fresh chunks.flatten s rest fs) :
    fs.map Frame.content <+: produced chunks rs := by
  by_cases hne : rest = []
  · subst hne
    rw [produced_of_reads hfeeds hv]
  · obtain ⟨m, qs, zs, o, hu, -, -, -, hreqs⟩ := underway_of_visits fd hv hne
    have hpre := (kept_queued qs).final hu List.prefix_rfl hfeeds
    rw [← contents_eq hreqs]
    exact hpre.map _

theorem header_of_headerIs {n : ℕ} {hb : MReadBuf} {c : Content}
    (h : HeaderIs n hb conn rs.flatten) (hc : (produced chunks rs)[n]? = some c) :
    c.header = hb.pending (storeOf chunks) := by
  rw [produced, List.getElem?_map] at hc
  obtain ⟨r, hr, rfl⟩ := Option.map_eq_some_iff.mp hc
  rcases h with ⟨hlen, -⟩ | ⟨r', hr', rfl⟩
  · rw [List.getElem?_eq_none hlen.le] at hr
    cases hr
  · rw [hr] at hr'
    cases hr'
    rfl

/-- The request in whose body the frame reader stands has the header that was read. -/
theorem header_of_visits (hfeeds : Feeds 0 (.new fd) chunks conn rs)
    (hv : frameReader.Visits fresh chunks.flatten ⟨.body mg start ls hd, []⟩ rest fs)
    (hne : rest ≠ []) {c : Content} (hc : (produced chunks rs)[fs.length]? = some c) :
    c.header = hd := by
  obtain ⟨m, qs, zs, o, hu, hsim, -, -, hreqs⟩ := underway_of_visits fd hv hne
  obtain ⟨htype, -, -, hbuf, buf, hthe, hhold, -⟩ := hsim.inPart
  have hm : HeaderIs fs.length hbuf m.conn qs := Or.inl ⟨hreqs.length_eq, htype, by rw [hthe]⟩
  rw [header_of_headerIs ((kept_header _ _).final hu hm hfeeds) hc, hhold.bytes]

theorem Underway.next {m m' : ParseState} {qs : List MRequest} (hu : Underway fd chunks m qs)
    (hstep : m.step = some m') : ∃ o, m'.reqs = m.reqs ++ o ∧ Underway fd chunks m' (qs ++ o) := by
  obtain ⟨before, chunk, after, conn, rs, hch, hfeeds, hreach, rfl⟩ := hu
  obtain ⟨o, ho⟩ := step_reqs hstep
  refine ⟨o, ho, before, chunk, after, conn, rs, hch, hfeeds,
    hreach.trans (Reaches.next hstep .refl), ?_⟩
  rw [ho, List.append_assoc]

theorem Holds.pending_append {store : BufId → List UInt8} {r : MReadBuf} {bs : List UInt8}
    (h : Holds store r bs) (g : MBufferGuard) :
    (r.append g).pending store = bs ++ slice (store g.buf) g.index g.size := by
  rw [MReadBuf.pending_append store h.atStart.1, h.bytes, h.atStart.2, add_zero, sub_zero]

/-- A counter that is not positive is taken whole. -/
theorem Sim.remain_of_nonpos {store : BufId → List UInt8} {base : BufId → ℕ} {m : ParseState}
    {p : Part} (h : Sim store base m ⟨p, []⟩ rest fs) (hne : rest ≠ [])
    (hneed : frameReader.need p ≤ 0) : m.remain = frameReader.need p := by
  have hpos := h.length_pos hne
  rw [m.remain_eq_min, h.counter_eq]
  simp only [List.length_nil]
  omega

/-- A header length that is not positive gives an empty header. -/
theorem header_of_nonpos (hfeeds : Feeds 0 (.new fd) chunks conn rs)
    (hv : frameReader.Visits fresh chunks.flatten ⟨.header mg start ls, []⟩ rest fs)
    (hne : rest ≠ []) (hlen : MLengthHeader.rpcHeaderLength ls ≤ 0) {c : Content}
    (hc : (produced chunks rs)[fs.length]? = some c) : c.header = [] := by
  obtain ⟨m, qs, zs, o, hu, hsim, hzs, hl, hreqs⟩ := underway_of_visits fd hv hne
  obtain ⟨htype, -, -, buf, hthe, hbuf⟩ := hsim.inPart
  have hstep : m.step = some m.rpcHeaderCase := hsim.step_eq hzs hl
  have hrem : m.remain = MLengthHeader.rpcHeaderLength ls := hsim.remain_of_nonpos hzs hlen
  have hzero : ¬ 0 < m.conn.theParser.rpcRemain.getD 0 - m.remain := by
    rw [hthe, hrem]
    simp
  have hm : HeaderIs fs.length (buf.append (.new m.id m.buf m.remain)) m.rpcHeaderCase.conn qs := by
    left
    refine ⟨hreqs.length_eq, ?_⟩
    simp only [ParseState.rpcHeaderCase, if_neg hzero]
    exact ⟨rfl, by simp [hthe]⟩
  obtain ⟨o', ho', hu'⟩ := hu.next hstep
  obtain rfl : o' = [] := by
    have : m.reqs = m.reqs ++ o' := ho'
    simpa using this
  rw [List.append_nil] at hu'
  rw [header_of_headerIs ((kept_header _ _).final hu' hm hfeeds) hc, hbuf.pending_append,
    slice_zero_size _ _ (by simpa [MBufferGuard.new, hrem] using hlen), List.append_nil]

/-- A body length that is not positive completes the request at once. -/
theorem body_of_nonpos (hfeeds : Feeds 0 (.new fd) chunks conn rs)
    (hv : frameReader.Visits fresh chunks.flatten ⟨.body mg start ls hd, []⟩ rest fs)
    (hne : rest ≠ []) (hlen : MLengthHeader.rpcBodyLength ls ≤ 0) :
    fs.map Frame.content ++ [⟨ls, hd, []⟩] <+: produced chunks rs := by
  obtain ⟨m, qs, zs, o, hu, hsim, hzs, hl, hreqs⟩ := underway_of_visits fd hv hne
  obtain ⟨htype, -, -, hbuf, buf, hthe, hhold, hbold⟩ := hsim.inPart
  have hstep : m.step = some m.rpcContentCase := hsim.step_eq hzs hl
  have hrem : m.remain = MLengthHeader.rpcBodyLength ls := hsim.remain_of_nonpos hzs hlen
  have hzero : ¬ 0 < m.conn.theParser.rpcRemain.getD 0 - m.remain := by
    rw [hthe, hrem]
    simp
  obtain ⟨o', ho', hu'⟩ := hu.next hstep
  obtain rfl : o' = [m.bodyReq] := by
    have hqueue : m.rpcContentCase.reqs = m.reqs ++ [m.bodyReq] := by
      simp only [ParseState.rpcContentCase, if_neg hzero]
      rfl
    rw [hqueue] at ho'
    exact (List.append_cancel_left ho').symm
  have hreq : m.bodyReq.content (storeOf chunks) = ⟨ls, hd, []⟩ := by
    have hbody := hbold.pending_append (.new m.id m.buf m.remain)
    rw [slice_zero_size _ _ (by simpa [MBufferGuard.new, hrem] using hlen)] at hbody
    ext1
    · simp [MRequest.content, ParseState.bodyReq, hthe]
    · simp [MRequest.content, ParseState.bodyReq, hthe, hhold.bytes]
    · simpa [MRequest.content, ParseState.bodyReq, hthe] using hbody
  have hpre := ((kept_queued _).final hu' List.prefix_rfl hfeeds).map
    (MRequest.content (storeOf chunks))
  rw [List.map_append, contents_eq hreqs, List.map_singleton, hreq] at hpre
  exact hpre

end Reading

end MgRaffle.MgServer
