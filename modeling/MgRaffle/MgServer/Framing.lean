import MgRaffle.MgServer.Chunking

namespace MgRaffle.MgServer
open Collector

/-- The number of bytes of the frame, its magic bytes aside, whose lengths a list begins with. -/
def frameLength (xs : List UInt8) : ℤ :=
  8 + MLengthHeader.rpcHeaderLength (xs.take 8) + MLengthHeader.rpcBodyLength (xs.take 8)

/-- The frame is completed by the bytes at hand: they are all there and, when the body is
empty, one more. -/
def Completed (xs : List UInt8) : Prop :=
  8 ≤ xs.length ∧ frameLength xs ≤ xs.length ∧
    (MLengthHeader.rpcBodyLength (xs.take 8) = 0 → frameLength xs < xs.length)

instance (xs : List UInt8) : Decidable (Completed xs) := by unfold Completed; infer_instance

section Frames

variable {m ls hd bd rest xs : List UInt8} {start : ℕ}

theorem visits_magic (hm : m.length = 4) :
    frameReader.Visits fresh (m ++ rest) ⟨.lengths m 0, []⟩ rest [] := by
  have hne : m ++ rest ≠ [] := by
    intro h
    simp [(List.append_eq_nil_iff.mp h).1] at hm
  exact .fill (by simp [fresh, frameReader, hm]) hne

theorem visits_between (hne : rest ≠ []) :
    frameReader.Visits ⟨.between m start, []⟩ rest ⟨.lengths m start, []⟩ rest [] :=
  @Reader.Visits.fill _ _ _ frameReader ⟨.between m start, []⟩ [] rest rfl hne

theorem visits_lengths (hls : ls.length = 8) :
    frameReader.Visits ⟨.lengths m start, []⟩ (ls ++ rest) ⟨.header m start ls, []⟩ rest [] := by
  have hne : ls ++ rest ≠ [] := by
    intro h
    simp [(List.append_eq_nil_iff.mp h).1] at hls
  exact .fill (by simp [frameReader, hls]) hne

theorem visits_header (hhd : MLengthHeader.rpcHeaderLength ls = hd.length)
    (hne : hd ++ rest ≠ []) :
    frameReader.Visits ⟨.header m start ls, []⟩ (hd ++ rest) ⟨.body m start ls hd, []⟩ rest [] :=
  .fill (by simp [frameReader, hhd]) hne

theorem visits_body (hbd : MLengthHeader.rpcBodyLength ls = bd.length) (hne : bd ++ rest ≠ []) :
    frameReader.Visits ⟨.body m start ls hd, []⟩ (bd ++ rest)
      ⟨.between m (Frame.stop ⟨start, opening m start, ls, hd, bd⟩), []⟩ rest
      [⟨start, opening m start, ls, hd, bd⟩] :=
  .fill (by simp [frameReader, hbd]) hne

/-- A whole frame is read, and emitted unless it ends with an empty body at the end of the
bytes at hand. -/
theorem visits_frame (hls : ls.length = 8) (hhd : MLengthHeader.rpcHeaderLength ls = hd.length)
    (hbd : MLengthHeader.rpcBodyLength ls = bd.length) (hne : bd ++ rest ≠ []) :
    frameReader.Visits ⟨.lengths m start, []⟩ (ls ++ (hd ++ (bd ++ rest)))
      ⟨.between m (Frame.stop ⟨start, opening m start, ls, hd, bd⟩), []⟩ rest
      [⟨start, opening m start, ls, hd, bd⟩] :=
  (visits_lengths hls).trans ((visits_header hhd (by simp [hne])).trans (visits_body hbd hne))

/-- The lengths that a list begins with are not negative, once they are all there. -/
def NonnegAtHead (xs : List UInt8) : Prop :=
  8 ≤ xs.length → 0 ≤ MLengthHeader.rpcHeaderLength (xs.take 8) ∧
    0 ≤ MLengthHeader.rpcBodyLength (xs.take 8)

theorem nonnegAtHead_of_visits {ys : List UInt8} {fs : List Frame} (h : LengthsNonneg xs)
    (hv : frameReader.Visits fresh xs ⟨.lengths m start, []⟩ ys fs) : NonnegAtHead ys := by
  intro hlen
  have hls : (ys.take 8).length = 8 := by rw [List.length_take]; omega
  have hv' : frameReader.Visits ⟨.lengths m start, []⟩ (ys.take 8 ++ ys.drop 8)
      ⟨.header m start (ys.take 8), []⟩ (ys.drop 8) [] := visits_lengths hls
  rw [List.take_append_drop] at hv'
  exact h _ _ _ (hv.trans hv')

/-- The frame at the head of the list. -/
def frameAt (m : List UInt8) (start : ℕ) (xs : List UInt8) : Frame where
  start := start
  opening := opening m start
  lengths := xs.take 8
  header := (xs.drop 8).take (MLengthHeader.rpcHeaderLength (xs.take 8)).toNat
  body := ((xs.drop 8).drop (MLengthHeader.rpcHeaderLength (xs.take 8)).toNat).take
    (MLengthHeader.rpcBodyLength (xs.take 8)).toNat

theorem frameAt_bytes (h : Completed xs) (hnn : NonnegAtHead xs) :
    (frameAt m start xs).bytes = opening m start ++ xs.take (frameLength xs).toNat := by
  obtain ⟨hh, hb⟩ := hnn h.1
  have hsum : (frameLength xs).toNat = 8 + ((MLengthHeader.rpcHeaderLength (xs.take 8)).toNat +
      (MLengthHeader.rpcBodyLength (xs.take 8)).toNat) := by
    unfold frameLength
    omega
  rw [hsum, List.take_add, List.take_add, Frame.bytes]
  simp only [frameAt, List.append_assoc]

/-- A frame that the bytes at hand complete is emitted. -/
theorem visits_completed (h : Completed xs) (hnn : NonnegAtHead xs) :
    frameReader.Visits ⟨.lengths m start, []⟩ xs
      ⟨.between m (frameAt m start xs).stop, []⟩ (xs.drop (frameLength xs).toNat)
      [frameAt m start xs] := by
  obtain ⟨h8, hall, hempty⟩ := h
  obtain ⟨hh, hb⟩ := hnn h8
  let hl := (MLengthHeader.rpcHeaderLength (xs.take 8)).toNat
  let bl := (MLengthHeader.rpcBodyLength (xs.take 8)).toNat
  have hsum : (frameLength xs).toNat = 8 + (hl + bl) := by
    unfold frameLength hl bl
    omega
  have hxs : xs = xs.take 8 ++ ((xs.drop 8).take hl ++
      (((xs.drop 8).drop hl).take bl ++ xs.drop (frameLength xs).toNat)) := by
    rw [hsum, ← List.drop_drop, ← List.drop_drop, List.take_append_drop, List.take_append_drop,
      List.take_append_drop]
  have hlen : (xs.length : ℤ) ≥ 8 + hl + bl := by
    unfold frameLength at hall
    omega
  -- a body of no bytes is emitted only when another byte follows
  have hne : ((xs.drop 8).drop hl).take bl ++ xs.drop (frameLength xs).toNat ≠ [] := by
    intro hnil
    have hlen' := congrArg List.length hnil
    simp only [List.length_append, List.length_take, List.length_drop, List.length_nil] at hlen'
    by_cases hz : MLengthHeader.rpcBodyLength (xs.take 8) = 0
    · have := hempty hz
      omega
    · omega
  have hv : frameReader.Visits ⟨.lengths m start, []⟩ (xs.take 8 ++ ((xs.drop 8).take hl ++
      (((xs.drop 8).drop hl).take bl ++ xs.drop (frameLength xs).toNat)))
      ⟨.between m (frameAt m start xs).stop, []⟩ (xs.drop (frameLength xs).toNat)
      [frameAt m start xs] := by
    apply visits_frame _ _ _ hne
    · rw [List.length_take]
      omega
    · simp only [List.length_take, List.length_drop]
      omega
    · simp only [List.length_take, List.length_drop]
      omega
  rwa [← hxs] at hv

/-- Where the bytes at hand do not complete the frame, they are all taken into it. -/
theorem reads_of_not_completed (m : List UInt8) (start : ℕ) (h : ¬ Completed xs) (hnn : NonnegAtHead xs) :
    ∃ t, frameReader.Reads ⟨.lengths m start, []⟩ xs t [] := by
  by_cases h8 : 8 ≤ xs.length
  · obtain ⟨hh, hb⟩ := hnn h8
    have hls : (xs.take 8).length = 8 := by rw [List.length_take]; omega
    have hv : frameReader.Visits ⟨.lengths m start, []⟩ (xs.take 8 ++ xs.drop 8)
        ⟨.header m start (xs.take 8), []⟩ (xs.drop 8) [] := visits_lengths hls
    rw [List.take_append_drop] at hv
    -- the bytes run out in the header, behind it, in the body or before an empty body
    by_cases hhd : ((xs.drop 8).length : ℤ) < MLengthHeader.rpcHeaderLength (xs.take 8)
    · exact ⟨_, hv.trans (reads_short (by simpa [frameReader] using hhd))⟩
    by_cases hnil : xs.drop 8 = []
    · rw [hnil] at hv
      exact ⟨_, hv⟩
    let hl := (MLengthHeader.rpcHeaderLength (xs.take 8)).toNat
    have hlen : MLengthHeader.rpcHeaderLength (xs.take 8) = ((xs.drop 8).take hl).length := by
      rw [List.length_take]
      omega
    have hv' : frameReader.Visits ⟨.header m start (xs.take 8), []⟩
        ((xs.drop 8).take hl ++ (xs.drop 8).drop hl)
        ⟨.body m start (xs.take 8) ((xs.drop 8).take hl), []⟩ ((xs.drop 8).drop hl) [] := by
      apply visits_header hlen
      rwa [List.take_append_drop]
    rw [List.take_append_drop] at hv'
    by_cases hbd : (((xs.drop 8).drop hl).length : ℤ) < MLengthHeader.rpcBodyLength (xs.take 8)
    · exact ⟨_, (hv.trans hv').trans (reads_short (by simpa [frameReader] using hbd))⟩
    by_cases hnil' : (xs.drop 8).drop hl = []
    · rw [hnil'] at hv'
      exact ⟨_, hv.trans hv'⟩
    · exfalso
      apply h
      have hpos := List.length_pos_iff.mpr hnil'
      simp only [List.length_drop] at hhd hbd hpos
      refine ⟨h8, ?_, ?_⟩ <;> unfold frameLength <;> omega
  · refine ⟨_, reads_short ?_⟩
    simp only [frameReader, List.length_nil]
    omega

end Frames

section Slices

/-- What a request is cut from: the offset at which its last body guard ends, and the bytes. -/
def MRequest.piece (store : BufId → List UInt8) (base : BufId → ℕ) (r : MRequest) : ℤ × Content :=
  (r.stop base, r.content store)

def Frame.piece (f : Frame) : ℤ × Content := (f.stop, f.content)

/-- The bytes of the stream from offset `start` to the end of the piece are a frame. -/
def FramedFrom (stream : List UInt8) (start : ℤ) (p : ℤ × Content) : Prop :=
  p.2.lengthHeader.length = 8 ∧
    MLengthHeader.rpcHeaderLength p.2.lengthHeader = p.2.header.length ∧
    MLengthHeader.rpcBodyLength p.2.lengthHeader = p.2.body.length ∧
    slice stream start (p.1 - start) = MAGIC ++ p.2.lengthHeader ++ p.2.header ++ p.2.body

/-- The pieces are frames of the stream, each one beginning where the one before it ends. -/
def Framed (stream : List UInt8) : ℤ → List (ℤ × Content) → Prop
  | _, [] => True
  | start, p :: ps => FramedFrom stream start p ∧ Framed stream p.1 ps

/-- The requests cut from the chunks are frames of the stream. -/
def RequestsFramed (fd : ℤ) (chunks : List (List UInt8)) : Prop :=
  ∃ conn rs, Feeds 0 (.new fd) chunks conn rs ∧
    Framed chunks.flatten 0 (rs.flatten.map (MRequest.piece (storeOf chunks) (baseOf chunks)))

variable {chunks : List (List UInt8)} {fd : ℤ} {t : State Part UInt8} {fs : List Frame}

theorem pieces_eq {store : BufId → List UInt8} {base : BufId → ℕ} {rs : List MRequest}
    (h : List.Forall₂ (IsRequest store base) rs fs) :
    rs.map (MRequest.piece store base) = fs.map Frame.piece := by
  induction h with
  | nil => rfl
  | cons hr _ ih =>
    rw [List.map_cons, List.map_cons, ih, MRequest.piece, Frame.piece, hr.content_eq, hr.stop]

theorem requestsFramed_iff (hr : frameReader.Reads fresh chunks.flatten t fs) :
    RequestsFramed fd chunks ↔ Framed chunks.flatten 0 (fs.map Frame.piece) := by
  obtain ⟨conn, rs, hfeeds, -, hreqs⟩ := feeds_fresh fd hr
  rw [← pieces_eq hreqs]
  constructor
  · rintro ⟨conn', rs', hfeeds', h⟩
    obtain ⟨-, rfl⟩ := hfeeds.unique hfeeds'
    exact h
  · intro h
    exact ⟨conn, rs, hfeeds, h⟩

/-- A frame that is not the first one is too short to begin with the magic bytes. -/
theorem not_framedFrom {stream : List UInt8} {f : Frame} (hstart : f.start ≠ 0) (hwf : f.Wf) :
    ¬ FramedFrom stream f.start f.piece := by
  rintro ⟨-, -, -, hslice⟩
  have hlen := congrArg List.length hslice
  obtain ⟨hop, hls, -, -⟩ := hwf
  rw [if_neg hstart] at hop
  simp only [Frame.piece, Frame.content, Frame.stop, Frame.bytes, slice, List.length_take,
    List.length_append, hop, hls, MAGIC, List.length_cons, List.length_nil] at hlen
  omega

section First

variable {m xs : List UInt8}

theorem frameAt_wf (start : ℕ) (hm : m.length = 4) (hc : Completed xs) (hnn : NonnegAtHead xs) :
    (frameAt m start xs).Wf :=
  (wf_of_visits (visits_completed hc hnn) hm).2 _ (List.mem_singleton.mpr rfl)

theorem frameAt_zero_bytes (hc : Completed xs) (hnn : NonnegAtHead xs) :
    (frameAt m 0 xs).bytes = m ++ xs.take (frameLength xs).toNat := by
  rw [frameAt_bytes hc hnn, opening, if_pos rfl]

/-- The first frame begins with the magic bytes if the stream does. -/
theorem framedFrom_first (hm : m.length = 4) (hc : Completed xs) (hnn : NonnegAtHead xs) :
    FramedFrom (m ++ xs) 0 (frameAt m 0 xs).piece ↔ MAGIC <+: m ++ xs := by
  have hbytes := @frameAt_zero_bytes m xs hc hnn
  obtain ⟨-, hls, hhd, hbd⟩ := frameAt_wf 0 hm hc hnn
  -- the slice is the frame, so only the four opening bytes are in question
  have hslice : slice (m ++ xs) 0 ((frameAt m 0 xs).stop - 0) = (frameAt m 0 xs).bytes := by
    have hstream : m ++ xs = (frameAt m 0 xs).bytes ++ xs.drop (frameLength xs).toNat := by
      rw [hbytes, List.append_assoc, List.take_append_drop]
    have hstop : ((frameAt m 0 xs).stop - 0 : ℤ).toNat = (frameAt m 0 xs).bytes.length := by
      rw [sub_zero, Int.toNat_natCast, Frame.stop]
      simp [frameAt]
    rw [slice, Int.toNat_zero, List.drop_zero, hstop, hstream, List.take_left]
  have hopen : (frameAt m 0 xs).opening = m := by rw [frameAt, opening, if_pos rfl]
  have hmagic : MAGIC <+: m ++ xs ↔ m = MAGIC := by
    constructor
    · intro hpre
      have hpre' : MAGIC <+: m := List.prefix_of_prefix_length_le hpre (List.prefix_append _ _)
        (by rw [hm]; rfl)
      exact (hpre'.eq_of_length (by rw [hm]; rfl)).symm
    · intro heq
      rw [heq]
      exact List.prefix_append _ _
  rw [hmagic, FramedFrom]
  simp only [Frame.piece, Frame.content, hslice, Frame.bytes, hopen]
  constructor
  · rintro ⟨-, -, -, heq⟩
    simpa using heq
  · intro heq
    exact ⟨hls, hhd, hbd, by rw [heq]⟩

/-- The frames of a stream of at least four bytes. -/
theorem framed_iff (hm : m.length = 4) (h : LengthsNonneg (m ++ xs))
    (hr : frameReader.Reads fresh (m ++ xs) t fs) :
    Framed (m ++ xs) 0 (fs.map Frame.piece) ↔
      (Completed xs → MAGIC <+: m ++ xs ∧ ¬ Completed (xs.drop (frameLength xs).toNat)) := by
  have hv : frameReader.Visits fresh (m ++ xs) ⟨.lengths m 0, []⟩ xs [] := visits_magic hm
  have hnn := nonnegAtHead_of_visits h hv
  by_cases hc : Completed xs
  · let f := frameAt m 0 xs
    let ys := xs.drop (frameLength xs).toNat
    have hv₁ : frameReader.Visits fresh (m ++ xs) ⟨.between m f.stop, []⟩ ys [f] :=
      hv.trans (visits_completed hc hnn)
    have hlens : ys ≠ [] → frameReader.Visits fresh (m ++ xs) ⟨.lengths m f.stop, []⟩ ys [f] :=
      fun hne => hv₁.trans (visits_between hne)
    by_cases hys : Completed ys
    · -- the second frame is read where no magic bytes are expected
      have hne : ys ≠ [] := by
        intro hnil
        have := hys.1
        simp [hnil] at this
      have hnn' := nonnegAtHead_of_visits h (hlens hne)
      obtain ⟨gs, -, rfl⟩ := hr.after ((hlens hne).trans (visits_completed hys hnn'))
      have hstop : (frameAt m f.stop ys).start ≠ 0 := by
        have hbytes : f.bytes = m ++ xs.take (frameLength xs).toNat := frameAt_zero_bytes hc hnn
        simp only [frameAt, Frame.stop, hbytes, List.length_append]
        omega
      refine iff_of_false ?_ fun hcond => (hcond hc).2 hys
      intro hframed
      exact not_framedFrom hstop (frameAt_wf _ hm hys hnn') hframed.2.1
    · -- the bytes behind the first frame complete no second one
      obtain ⟨gs₁, hrest₁, rfl⟩ := hr.after hv₁
      have hnil : gs₁ = [] := by
        by_cases hne : ys = []
        · rw [hne] at hrest₁
          exact (reads_nil_iff.mp hrest₁).2
        · have hnn' := nonnegAtHead_of_visits h (hlens hne)
          obtain ⟨u, hu⟩ := reads_of_not_completed m f.stop hys hnn'
          exact (hrest₁.unique ((visits_between hne).trans hu)).2
      rw [hnil, List.append_nil, List.map_singleton]
      have hfirst := framedFrom_first hm hc hnn
      constructor
      · intro hframed _
        exact ⟨hfirst.mp hframed.1, hys⟩
      · intro hcond
        exact ⟨hfirst.mpr (hcond hc).1, trivial⟩
  · obtain ⟨u, hu⟩ := reads_of_not_completed m 0 hc hnn
    obtain ⟨-, rfl⟩ := hr.unique (hv.trans hu)
    exact iff_of_true trivial fun hc' => absurd hc' hc

end First

/-- The requests are frames of the stream exactly when at most one frame is completed, and the
stream begins with the magic bytes if one is. -/
theorem requestsFramed_iff_single (fd : ℤ) (chunks : List (List UInt8))
    (h : LengthsNonneg chunks.flatten) :
    RequestsFramed fd chunks ↔
      (Completed (chunks.flatten.drop 4) → MAGIC <+: chunks.flatten ∧
        ¬ Completed ((chunks.flatten.drop 4).drop (frameLength (chunks.flatten.drop 4)).toNat)) := by
  obtain ⟨t, fs, hr⟩ := h.loaded.acted.reads
  rw [requestsFramed_iff hr]
  by_cases h4 : 4 ≤ chunks.flatten.length
  · have hm : (chunks.flatten.take 4).length = 4 := by rw [List.length_take]; omega
    have hsplit := List.take_append_drop 4 chunks.flatten
    rw [← hsplit] at h hr
    have hiff := framed_iff hm h hr
    rwa [hsplit] at hiff
  · -- fewer than four bytes: the reader is still in the magic bytes
    have hreads : frameReader.Reads fresh chunks.flatten ⟨.magic, [] ++ chunks.flatten⟩ [] :=
      reads_short (by simp only [fresh, frameReader, List.length_nil]; omega)
    obtain ⟨-, rfl⟩ := hr.unique hreads
    refine iff_of_true trivial ?_
    rintro ⟨h8, -⟩
    rw [List.length_drop] at h8
    omega

/-- One message with an empty header and a body of one byte, in two chunks. -/
theorem requestsFramed_iff_single_marked :
    RequestsFramed 7 [MAGIC ++ [0, 0], [0, 0, 1, 0, 0, 0, 0x2a]] :=
  (requestsFramed_iff_single 7 [MAGIC ++ [0, 0], [0, 0, 1, 0, 0, 0, 0x2a]]
    (lengthsNonneg_of_check (by decide : frameReader.check _ 8 fresh _ = true))).mpr (by decide)

/-- The same message behind four zero bytes. -/
def unmarkedChunk : List UInt8 := [0, 0, 0, 0] ++ [0, 0, 0, 0, 1, 0, 0, 0] ++ [0x2a]

theorem unmarkedChunk_yields_request :
    ¬ (LengthsNonneg [unmarkedChunk].flatten → RequestsFramed 7 [unmarkedChunk]) := by
  intro h
  have hnn : LengthsNonneg [unmarkedChunk].flatten :=
    lengthsNonneg_of_check (by decide : frameReader.check _ 8 fresh _ = true)
  have hr : frameReader.Reads fresh [unmarkedChunk].flatten ⟨.between [0, 0, 0, 0] 13, []⟩
      [⟨0, [0, 0, 0, 0], [0, 0, 0, 0, 1, 0, 0, 0], [], [0x2a]⟩] :=
    reads_of_readAll (by decide : frameReader.readAll 8 _ _ = _)
  have hslice := ((requestsFramed_iff hr).mp (h hnn)).1.2.2.2
  revert hslice
  decide

end Slices

end MgRaffle.MgServer
