import MgRaffle.MgServer.Framing
import MgRaffle.MgServer.Queues

namespace MgRaffle.MgServer
open Collector LittleEndian

structure Message where
  header : List UInt8
  body : List UInt8
  deriving Repr, DecidableEq

/-- `mlh` as `client.cpp` and `do_response` fill it: each size is converted to `int`. -/
def MLengthHeader.encode (headerLength bodyLength : ℕ) : List UInt8 :=
  ofNat32 headerLength ++ ofNat32 bodyLength

def Message.encode (msg : Message) : List UInt8 :=
  MAGIC ++ (MLengthHeader.encode msg.header.length msg.body.length ++ (msg.header ++ msg.body))

def encodes (msgs : List Message) : List UInt8 := msgs.flatMap Message.encode

def Content.message (c : Content) : Message := ⟨c.header, c.body⟩

/-- The chunks yield the messages in order, and each message by the call that supplies its last
byte. -/
def RoundTrips (fd : ℤ) (msgs : List Message) (chunks : List (List UInt8)) : Prop :=
  ∃ conn rs, Feeds 0 (.new fd) chunks conn rs ∧ (produced chunks rs).map Content.message = msgs ∧
    ∀ k i, i < msgs.length →
      (encodes (msgs.take (i + 1))).length ≤ (chunks.take k).flatten.length →
      i < (rs.take k).flatten.length

section Lengths

variable {hl bl : ℕ} {ls : List UInt8}

@[simp] theorem length_encode (hl bl : ℕ) : (MLengthHeader.encode hl bl).length = 8 := rfl

theorem rpcHeaderLength_encode (hl bl : ℕ) :
    MLengthHeader.rpcHeaderLength (MLengthHeader.encode hl bl) = toInt32 (ofNat32 hl ++ []) := rfl

theorem rpcBodyLength_encode (hl bl : ℕ) :
    MLengthHeader.rpcBodyLength (MLengthHeader.encode hl bl) = toInt32 (ofNat32 bl ++ []) := rfl

/-- A length is read back exactly if it fits. -/
theorem toInt32_ofNat32_iff {n : ℕ} (bs : List UInt8) :
    toInt32 (ofNat32 n ++ bs) = n ↔ n < 2147483648 := by
  constructor
  · intro h
    by_contra hge
    have := toInt32_ofNat32_ne (not_lt.mp hge) bs
    omega
  · intro h
    exact toInt32_ofNat32 h bs

end Lengths

section Pengs

/-- The magic bytes, `n` times over. -/
def pengs (n : ℕ) : List UInt8 := (List.replicate n MAGIC).flatten

@[simp] theorem pengs_zero : pengs 0 = [] := rfl

theorem pengs_succ (n : ℕ) : pengs (n + 1) = MAGIC ++ pengs n := rfl

theorem pengs_add (a b : ℕ) : pengs (a + b) = pengs a ++ pengs b := by
  rw [pengs, List.replicate_add, List.flatten_append]
  rfl

@[simp] theorem length_pengs (n : ℕ) : (pengs n).length = 4 * n := by
  induction n with
  | zero => rfl
  | succ n ih =>
    rw [pengs_succ, List.length_append, ih, MAGIC]
    simp only [List.length_cons, List.length_nil]
    omega

theorem pengs_comm (a b : ℕ) (rest : List UInt8) :
    pengs a ++ (pengs b ++ rest) = pengs b ++ (pengs a ++ rest) := by
  rw [← List.append_assoc, ← List.append_assoc, ← pengs_add, ← pengs_add, Nat.add_comm]

theorem pengs_magic (a : ℕ) (rest : List UInt8) :
    pengs a ++ (MAGIC ++ rest) = MAGIC ++ (pengs a ++ rest) :=
  pengs_comm a 1 rest

/-- Bytes that begin as they go on behind copies of the magic bytes are such copies. -/
theorem eq_pengs_of_take {xs ys : List UInt8} {k g : ℕ} (hlen : xs.length = 4 * g)
    (h : xs = (pengs (k + 1) ++ (xs ++ ys)).take (4 * g)) : xs = pengs g := by
  induction g generalizing xs ys with
  | zero => exact List.length_eq_zero_iff.mp hlen
  | succ g ih =>
    have htake : ∀ zs : List UInt8, (MAGIC ++ zs).take (4 * (g + 1)) = MAGIC ++ zs.take (4 * g) := by
      intro zs
      rw [show 4 * (g + 1) = MAGIC.length + 4 * g from Nat.add_comm _ _, List.take_length_add_append]
    rw [pengs_succ, List.append_assoc, htake] at h
    -- the first four bytes are magic bytes; the rest is in the same position
    let xs' := (pengs k ++ (xs ++ ys)).take (4 * g)
    have hxs : xs = MAGIC ++ xs' := h
    have hlen' : xs'.length = 4 * g := by
      have := congrArg List.length hxs
      rw [List.length_append, hlen, MAGIC] at this
      simp only [List.length_cons, List.length_nil] at this
      omega
    have hrec : xs' = (pengs (k + 1) ++ (xs' ++ ys)).take (4 * g) := by
      conv_lhs => rw [show xs' = (pengs k ++ (xs ++ ys)).take (4 * g) from rfl, hxs]
      rw [pengs_add k 1, pengs_succ 0, pengs_zero, List.append_nil]
      simp only [List.append_assoc]
    rw [hxs, ih hlen' hrec, pengs_succ]

theorem eq_pengs {xs ys zs : List UInt8} {k g : ℕ} (hlen : xs.length = 4 * g)
    (h : pengs (k + 1) ++ (xs ++ ys) = xs ++ zs) : xs = pengs g := by
  apply @eq_pengs_of_take xs ys k g hlen
  rw [h, ← hlen, List.take_left]

/-- The magic bytes, read as a length, are four times this number. -/
def giantWords : ℕ := 433822044

theorem toInt32_magic (bs : List UInt8) : toInt32 (MAGIC ++ bs) = (4 * giantWords : ℕ) := by
  have h : toNat32 (MAGIC ++ bs) = 1735288176 := by simp [toNat32, MAGIC]
  rw [toInt32, h, if_pos (by norm_num)]
  norm_num [giantWords]

/-- A length that reads as the magic bytes. -/
theorem ofNat32_giant : ofNat32 (4 * giantWords) = MAGIC := by decide

/-- The message that the server tells apart from the bytes around it by chance: all of its
bytes are magic bytes, its lengths included. -/
def giant : Message := ⟨pengs giantWords, pengs giantWords⟩

theorem encode_giant : giant.encode = pengs (3 + 2 * giantWords) := by
  have hlen : giant.header.length = 4 * giantWords := length_pengs _
  have hlen' : giant.body.length = 4 * giantWords := length_pengs _
  have hthree : pengs 3 = MAGIC ++ (MAGIC ++ MAGIC) := rfl
  rw [Message.encode, MLengthHeader.encode, hlen, hlen', ofNat32_giant, two_mul, pengs_add,
    pengs_add, hthree, giant]
  simp only [List.append_assoc]

theorem encodes_replicate_giant (j : ℕ) :
    encodes (List.replicate j giant) = pengs (j * (3 + 2 * giantWords)) := by
  induction j with
  | zero => rw [Nat.zero_mul]; rfl
  | succ j ih =>
    rw [List.replicate_succ, encodes, List.flatMap_cons, encode_giant, ← encodes, ih, ← pengs_add,
      Nat.add_comm, ← Nat.succ_mul]

end Pengs

section Next

variable {fd : ℤ} {chunks : List (List UInt8)} {conn : MConnection} {rs : List (List MRequest)}
  {mg ls hd xs : List UInt8} {start : ℕ} {fs : List Frame} {c : Content} {s : State Part UInt8}

/-- Where a further request is produced, the bytes do not end inside the part. -/
theorem not_reads_of_produced (hfeeds : Feeds 0 (.new fd) chunks conn rs)
    (hc : (produced chunks rs)[fs.length]? = some c)
    (hr : frameReader.Reads fresh chunks.flatten s fs) : False := by
  rw [produced_of_reads hfeeds hr, List.getElem?_eq_none (by simp)] at hc
  cases hc

/-- Where a further request is produced, the bytes go on, and past the part that is begun. -/
theorem part_of_produced {p : Part} (hfeeds : Feeds 0 (.new fd) chunks conn rs)
    (hc : (produced chunks rs)[fs.length]? = some c)
    (hv : frameReader.Visits fresh chunks.flatten ⟨p, []⟩ xs fs) :
    xs ≠ [] ∧ frameReader.need p ≤ xs.length := by
  constructor
  · rintro rfl
    exact not_reads_of_produced hfeeds hc hv
  · by_contra hlt
    have hr : frameReader.Reads ⟨p, []⟩ xs ⟨p, [] ++ xs⟩ [] := by
      apply reads_short
      show ((0 : ℕ) : ℤ) + xs.length < frameReader.need p
      omega
    have hv' := hv.trans hr
    rw [List.append_nil] at hv'
    exact not_reads_of_produced hfeeds hc hv'

/-- Where a further request is produced, its header is what its header length says, or empty
if that is negative. -/
theorem next_header (hfeeds : Feeds 0 (.new fd) chunks conn rs)
    (hc : (produced chunks rs)[fs.length]? = some c)
    (hv : frameReader.Visits fresh chunks.flatten ⟨.header mg start ls, []⟩ xs fs) :
    (MLengthHeader.rpcHeaderLength ls < 0 ∧ c.header = []) ∨
      (MLengthHeader.rpcHeaderLength ls = c.header.length ∧ ∃ rest, rest ≠ [] ∧
        xs = c.header ++ rest ∧
        frameReader.Visits fresh chunks.flatten ⟨.body mg start ls c.header, []⟩ rest fs) := by
  obtain ⟨hne, hlong⟩ : xs ≠ [] ∧ MLengthHeader.rpcHeaderLength ls ≤ xs.length :=
    part_of_produced hfeeds hc hv
  rcases lt_or_ge (MLengthHeader.rpcHeaderLength ls) 0 with hneg | hnn
  · exact Or.inl ⟨hneg, header_of_nonpos hfeeds hv hne hneg.le hc⟩
  right
  let hl := (MLengthHeader.rpcHeaderLength ls).toNat
  have hlen : MLengthHeader.rpcHeaderLength ls = (xs.take hl).length := by
    rw [List.length_take]
    omega
  have hsplit := List.take_append_drop hl xs
  have hv' : frameReader.Visits ⟨.header mg start ls, []⟩ (xs.take hl ++ xs.drop hl)
      ⟨.body mg start ls (xs.take hl), []⟩ (xs.drop hl) [] := visits_header hlen (by rwa [hsplit])
  rw [hsplit] at hv'
  have hbody := hv.trans hv'
  rw [List.append_nil] at hbody
  have hrest : xs.drop hl ≠ [] := by
    intro hnil
    rw [hnil] at hbody
    exact not_reads_of_produced hfeeds hc hbody
  have hhd := header_of_visits hfeeds hbody hrest hc
  rw [hhd]
  exact ⟨hlen, xs.drop hl, hrest, hsplit.symm, hbody⟩

/-- The same of its body; the frame that is read is the request. -/
theorem next_body (hfeeds : Feeds 0 (.new fd) chunks conn rs)
    (hc : (produced chunks rs)[fs.length]? = some c)
    (hv : frameReader.Visits fresh chunks.flatten ⟨.body mg start ls hd, []⟩ xs fs) :
    (MLengthHeader.rpcBodyLength ls < 0 ∧ c.body = []) ∨
      (MLengthHeader.rpcBodyLength ls = c.body.length ∧ ∃ rest f, xs = c.body ++ rest ∧
        f.content = c ∧ frameReader.Visits fresh chunks.flatten ⟨.between mg f.stop, []⟩ rest
          (fs ++ [f])) := by
  obtain ⟨hne, hlong⟩ : xs ≠ [] ∧ MLengthHeader.rpcBodyLength ls ≤ xs.length :=
    part_of_produced hfeeds hc hv
  -- what is produced behind the frames read so far is the request `c`
  have hlast : ∀ c', fs.map Frame.content ++ [c'] <+: produced chunks rs → c' = c := by
    intro c' hpre
    obtain ⟨tail, htail⟩ := hpre
    rw [← htail, List.append_assoc, List.getElem?_append_right (by simp)] at hc
    simpa using hc
  rcases lt_or_ge (MLengthHeader.rpcBodyLength ls) 0 with hneg | hnn
  · left
    have heq := hlast _ (body_of_nonpos hfeeds hv hne hneg.le)
    exact ⟨hneg, by rw [← heq]⟩
  right
  let bl := (MLengthHeader.rpcBodyLength ls).toNat
  have hlen : MLengthHeader.rpcBodyLength ls = (xs.take bl).length := by
    rw [List.length_take]
    omega
  have hsplit := List.take_append_drop bl xs
  let f : Frame := ⟨start, opening mg start, ls, hd, xs.take bl⟩
  have hv' : frameReader.Visits ⟨.body mg start ls hd, []⟩ (xs.take bl ++ xs.drop bl)
      ⟨.between mg f.stop, []⟩ (xs.drop bl) [f] := visits_body hlen (by rwa [hsplit])
  rw [hsplit] at hv'
  have hframe := hv.trans hv'
  have hpre := frames_produced hfeeds hframe
  rw [List.map_append] at hpre
  have hf : f.content = c := hlast _ hpre
  have hbd : c.body = xs.take bl := by rw [← hf]; rfl
  rw [hbd]
  exact ⟨hlen, xs.drop bl, f, hsplit.symm, hf, hframe⟩

end Next

section Tail

variable {fd : ℤ} {chunks : List (List UInt8)} {conn : MConnection} {rs : List (List MRequest)}
  {mg rest : List UInt8} {start : ℕ} {fs : List Frame} {ms : List Message}

theorem rpcHeaderLength_magic (bs : List UInt8) :
    MLengthHeader.rpcHeaderLength (MAGIC ++ bs) = (4 * giantWords : ℕ) := by
  have h : MLengthHeader.rpcHeaderLength (MAGIC ++ bs) = toInt32 (MAGIC ++ []) := rfl
  rw [h, toInt32_magic]

theorem rpcBodyLength_magic : MLengthHeader.rpcBodyLength (MAGIC ++ MAGIC) = (4 * giantWords : ℕ) := by
  have h : MLengthHeader.rpcBodyLength (MAGIC ++ MAGIC) = toInt32 (MAGIC ++ []) := rfl
  rw [h, toInt32_magic]

/-- Between two messages enough magic bytes are read as a giant. -/
theorem visits_giant (mg : List UInt8) (start : ℕ) (rest : List UInt8) : ∃ f,
    frameReader.Visits ⟨.between mg start, []⟩ (pengs (2 + 2 * giantWords) ++ rest)
      ⟨.between mg f.stop, []⟩ rest [f] ∧ f.content.message = giant := by
  have hlen : ((4 * giantWords : ℕ) : ℤ) = (pengs giantWords).length := by rw [length_pengs]
  have htwo : pengs 2 = MAGIC ++ MAGIC := rfl
  have hin : pengs (2 + 2 * giantWords) ++ rest =
      (MAGIC ++ MAGIC) ++ (pengs giantWords ++ (pengs giantWords ++ rest)) := by
    rw [two_mul, pengs_add, pengs_add, htwo]
    simp only [List.append_assoc]
  have hne : pengs giantWords ++ rest ≠ [] := by
    intro hnil
    have := congrArg List.length hnil
    rw [List.length_append, length_pengs, giantWords] at this
    simp at this
  have hv : frameReader.Visits ⟨.lengths mg start, []⟩
      ((MAGIC ++ MAGIC) ++ (pengs giantWords ++ (pengs giantWords ++ rest))) _ rest _ :=
    visits_frame rfl ((rpcHeaderLength_magic _).trans hlen) (rpcBodyLength_magic.trans hlen) hne
  rw [hin]
  exact ⟨_, (visits_between (by simp [MAGIC])).trans hv, rfl⟩

/-- The request behind the frames read so far. -/
theorem next_content {m : Message}
    (hout : (produced chunks rs).map Content.message =
      fs.map (fun f => f.content.message) ++ m :: ms) :
    ∃ c, (produced chunks rs)[fs.length]? = some c ∧ c.message = m := by
  have hget : ((produced chunks rs).map Content.message)[fs.length]? = some m := by
    rw [hout, List.getElem?_append_right (by simp)]
    simp
  rw [List.getElem?_map] at hget
  exact Option.map_eq_some_iff.mp hget

/-- Behind a frame a further message comes back only if it is a giant, and then one more word of
magic bytes is left over. -/
theorem next_giant (hfeeds : Feeds 0 (.new fd) chunks conn rs) {i : ℕ} {c : Content}
    (hc : (produced chunks rs)[fs.length]? = some c)
    (hv : frameReader.Visits fresh chunks.flatten ⟨.between mg start, []⟩
      (pengs i ++ encodes (c.message :: ms)) fs) :
    c.message = giant ∧ ∃ f : Frame, f.content = c ∧
      frameReader.Visits fresh chunks.flatten ⟨.between mg f.stop, []⟩ (pengs (i + 1) ++ encodes ms)
        (fs ++ [f]) := by
  let tail := ofNat32 c.body.length ++ (c.header ++ (c.body ++ encodes ms))
  let ys := pengs i ++ (ofNat32 c.header.length ++ tail)
  have hin : pengs i ++ encodes (c.message :: ms) = MAGIC ++ ys := by
    simp only [encodes, List.flatMap_cons, Message.encode, MLengthHeader.encode, Content.message,
      List.append_assoc, pengs_magic, ys, tail]
  have hy : (ys.take 4).length = 4 := by
    simp only [List.length_take, ys, List.length_append, length_ofNat32]
    omega
  have hls : frameReader.Visits ⟨.lengths mg start, []⟩ ((MAGIC ++ ys.take 4) ++ ys.drop 4)
      ⟨.header mg start (MAGIC ++ ys.take 4), []⟩ (ys.drop 4) [] :=
    visits_lengths (by rw [List.length_append, hy]; rfl)
  rw [List.append_assoc, List.take_append_drop] at hls
  rw [hin] at hv
  have hheader := hv.trans ((visits_between (by simp [MAGIC])).trans hls)
  rw [List.append_nil, List.append_nil] at hheader
  -- the magic bytes are read as the length of the header
  obtain ⟨hneg, -⟩ | ⟨hhl, rest, -, hzs, hbody⟩ := next_header hfeeds hc hheader
  · rw [rpcHeaderLength_magic] at hneg
    omega
  rw [rpcHeaderLength_magic] at hhl
  have hhl' : c.header.length = 4 * giantWords := by exact_mod_cast hhl.symm
  have hys : ys = MAGIC ++ (pengs i ++ tail) := by
    simp only [ys, hhl', ofNat32_giant, pengs_magic]
  have hytake : ys.take 4 = MAGIC := by rw [hys]; rfl
  have hydrop : ys.drop 4 = pengs i ++ tail := by rw [hys]; rfl
  -- and those of this message as the length of the body
  rw [hytake] at hbody
  obtain ⟨hneg, -⟩ | ⟨hbl, rest', f, rfl, hf, hnext⟩ := next_body hfeeds hc hbody
  · rw [rpcBodyLength_magic] at hneg
    omega
  rw [rpcBodyLength_magic] at hbl
  have hbl' : c.body.length = 4 * giantWords := by exact_mod_cast hbl.symm
  have hall : pengs (i + 1) ++ (c.header ++ (c.body ++ encodes ms)) =
      c.header ++ (c.body ++ rest') := by
    rw [← hzs, hydrop]
    simp only [tail, hbl', ofNat32_giant, pengs_succ, List.append_assoc, pengs_magic]
  have hhd : c.header = pengs giantWords := eq_pengs hhl' hall
  rw [hhd, pengs_comm] at hall
  have hall' := List.append_cancel_left hall
  have hbd : c.body = pengs giantWords := eq_pengs hbl' hall'
  rw [hbd, pengs_comm] at hall'
  rw [← List.append_cancel_left hall'] at hnext
  exact ⟨by rw [Content.message, hhd, hbd, giant], f, hf, hnext⟩

/-- Behind the first message only giants are read back, and only so many of them that the
magic bytes left over do not make a further one. -/
theorem tail_giants (hfeeds : Feeds 0 (.new fd) chunks conn rs) {i : ℕ}
    (hv : frameReader.Visits fresh chunks.flatten ⟨.between mg start, []⟩ (pengs i ++ encodes ms) fs)
    (hout : (produced chunks rs).map Content.message =
      fs.map (fun f => f.content.message) ++ ms) :
    ms = List.replicate ms.length giant ∧ i + ms.length < 2 + 2 * giantWords := by
  induction ms generalizing i start fs with
  | nil =>
    refine ⟨rfl, ?_⟩
    by_contra hge
    obtain ⟨r, rfl⟩ := Nat.exists_eq_add_of_le (not_lt.mp hge)
    obtain ⟨f, hf, -⟩ := visits_giant mg start (pengs r)
    have hin : pengs (2 + 2 * giantWords + r) ++ encodes [] = pengs (2 + 2 * giantWords) ++ pengs r := by
      rw [pengs_add, encodes, List.flatMap_nil, List.append_nil]
    -- enough magic bytes would be read as one more request
    rw [List.length_nil, Nat.add_zero] at *
    rw [hin] at hv
    have hpre := (frames_produced hfeeds (hv.trans hf)).length_le
    have hlen := congrArg List.length hout
    simp only [List.length_map, List.length_append, List.length_nil, List.length_singleton]
      at hpre hlen
    omega
  | cons m' ms' ih =>
    obtain ⟨c, hc, rfl⟩ := next_content hout
    obtain ⟨hgiant, f, hf, hnext⟩ := next_giant hfeeds hc hv
    have hout' : (produced chunks rs).map Content.message =
        (fs ++ [f]).map (fun f => f.content.message) ++ ms' := by
      rw [hout, List.map_append, List.map_singleton, hf, List.append_assoc]
      rfl
    obtain ⟨hms, hlt⟩ := ih hnext hout'
    constructor
    · rw [List.length_cons, List.replicate_succ, ← hms, hgiant]
    · rw [List.length_cons]
      omega

end Tail

/-- What must hold of the messages and of the cuts: both lengths of the first message fit, it
does not end with an empty body where a call ends, and every further message is a giant. -/
def Deliverable : List Message → List (List UInt8) → Prop
  | [], _ => True
  | m :: ms, chunks =>
    (m.header.length < 2147483648 ∧ m.body.length < 2147483648) ∧
      (m.body = [] → ms ≠ [] ∧ ∀ k, (chunks.take k).flatten.length ≠ m.encode.length) ∧
      ms = List.replicate ms.length giant ∧ ms.length < 2 + 2 * giantWords

section Messages

variable {fd : ℤ} {chunks : List (List UInt8)} {conn : MConnection} {rs : List (List MRequest)}
  {m : Message} {ms msgs : List Message} {c : Content} {rest : List UInt8}

theorem encodes_cons (m : Message) (ms : List Message) :
    encodes (m :: ms) = m.encode ++ encodes ms := List.flatMap_cons

/-- The two lengths of the first message are read. -/
theorem visits_first_lengths (m : Message) (rest : List UInt8) :
    frameReader.Visits fresh (m.encode ++ rest)
      ⟨.header MAGIC 0 (MLengthHeader.encode m.header.length m.body.length), []⟩
      (m.header ++ (m.body ++ rest)) [] := by
  have hm : frameReader.Visits fresh (MAGIC ++ (MLengthHeader.encode m.header.length m.body.length ++
      (m.header ++ (m.body ++ rest)))) ⟨.lengths MAGIC 0, []⟩ _ [] := visits_magic rfl
  have hv := hm.trans (visits_lengths rfl)
  simpa only [Message.encode, List.append_assoc, List.append_nil] using hv

theorem rpcHeaderLength_of_lt (hh : m.header.length < 2147483648) :
    MLengthHeader.rpcHeaderLength (MLengthHeader.encode m.header.length m.body.length) =
      m.header.length := by
  rw [rpcHeaderLength_encode, toInt32_ofNat32_iff]
  exact hh

theorem rpcBodyLength_of_lt (hb : m.body.length < 2147483648) :
    MLengthHeader.rpcBodyLength (MLengthHeader.encode m.header.length m.body.length) =
      m.body.length := by
  rw [rpcBodyLength_encode, toInt32_ofNat32_iff]
  exact hb

/-- The first message is read, if bytes follow an empty body. -/
theorem visits_first (hh : m.header.length < 2147483648) (hb : m.body.length < 2147483648)
    (hne : m.body ++ rest ≠ []) : ∃ f, frameReader.Visits fresh (m.encode ++ rest)
      ⟨.between MAGIC f.stop, []⟩ rest [f] ∧ f.content.message = m := by
  have hhd : frameReader.Visits ⟨.header MAGIC 0 _, []⟩ (m.header ++ (m.body ++ rest))
      ⟨.body MAGIC 0 _ m.header, []⟩ (m.body ++ rest) [] :=
    visits_header (rpcHeaderLength_of_lt hh) (by simp [hne])
  exact ⟨_, (visits_first_lengths m rest).trans (hhd.trans (visits_body (rpcBodyLength_of_lt hb) hne)),
    rfl⟩

/-- Without such bytes it is not completed. -/
theorem reads_first_incomplete (hh : m.header.length < 2147483648) (hb : m.body = []) :
    ∃ t, frameReader.Reads fresh m.encode t [] := by
  have hlens := visits_first_lengths m []
  rw [List.append_nil, List.append_nil, hb, List.append_nil] at hlens
  by_cases hnil : m.header = []
  · rw [hnil] at hlens
    exact ⟨_, hlens⟩
  · have hhd : frameReader.Visits ⟨.header MAGIC 0 _, []⟩ (m.header ++ [])
        ⟨.body MAGIC 0 _ m.header, []⟩ [] [] :=
      visits_header (rpcHeaderLength_of_lt hh) (by simpa using hnil)
    rw [List.append_nil, hb] at hhd
    exact ⟨_, hlens.trans hhd⟩

/-- A length of 2^31 or more is read as another one, and none reads as negative and empty. -/
theorem length_lt_of_read {bs : List UInt8} (h : toInt32 (ofNat32 bs.length ++ []) < 0 ∧ bs = [] ∨
    toInt32 (ofNat32 bs.length ++ []) = bs.length) : bs.length < 2147483648 := by
  rcases h with ⟨-, rfl⟩ | heq
  · exact Nat.zero_lt_succ _
  · exact (toInt32_ofNat32_iff _).mp heq

/-- Where the first message comes back, its lengths fit and bytes follow an empty body. -/
theorem next_first (hfeeds : Feeds 0 (.new fd) chunks conn rs)
    (hcut : chunks.flatten = c.message.encode ++ encodes ms)
    (hc : (produced chunks rs)[([] : List Frame).length]? = some c) :
    (c.header.length < 2147483648 ∧ c.body.length < 2147483648) ∧ c.body ++ encodes ms ≠ [] ∧
      ∃ f : Frame, f.content = c ∧ frameReader.Visits fresh chunks.flatten
        ⟨.between MAGIC f.stop, []⟩ (encodes ms) [f] := by
  have hlens := visits_first_lengths c.message (encodes ms)
  rw [← hcut] at hlens
  have hheader := next_header hfeeds hc hlens
  have hhl : c.header.length < 2147483648 := by
    apply length_lt_of_read
    rcases hheader with h | ⟨h, -⟩
    · exact Or.inl h
    · exact Or.inr h
  obtain ⟨hneg, -⟩ | ⟨-, rest, hrest, hxs, hvbody⟩ := hheader
  · rw [rpcHeaderLength_of_lt hhl] at hneg
    exact absurd hneg (by omega)
  obtain rfl : c.body ++ encodes ms = rest := List.append_cancel_left hxs
  have hbody := next_body hfeeds hc hvbody
  have hbl : c.body.length < 2147483648 := by
    apply length_lt_of_read
    rcases hbody with h | ⟨h, -⟩
    · exact Or.inl h
    · exact Or.inr h
  obtain ⟨hneg, -⟩ | ⟨-, rest', f, hxs', hf, hnext⟩ := hbody
  · rw [rpcBodyLength_of_lt hbl] at hneg
    exact absurd hneg (by omega)
  obtain rfl : encodes ms = rest' := List.append_cancel_left hxs'
  exact ⟨⟨hhl, hbl⟩, hrest, f, hf, hnext⟩

/-- A first message with an empty body that is produced as soon as its bytes are there does not
end where a call ends. -/
theorem not_cut_behind (hfeeds : Feeds 0 (.new fd) chunks conn rs)
    (hcut : chunks.flatten = m.encode ++ encodes ms) (hh : m.header.length < 2147483648)
    (hb : m.body = []) (k : ℕ)
    (htime : m.encode.length ≤ (chunks.take k).flatten.length → 0 < (rs.take k).flatten.length) :
    (chunks.take k).flatten.length ≠ m.encode.length := by
  intro hk
  have hpre : (chunks.take k).flatten = m.encode := by
    have htake : (chunks.take k).flatten <+: m.encode ++ encodes ms := by
      rw [← hcut]
      conv_rhs => rw [← List.take_append_drop k chunks, List.flatten_append]
      exact List.prefix_append _ _
    exact (List.prefix_of_prefix_length_le htake (List.prefix_append _ _) hk.le).eq_of_length hk
  obtain ⟨t, ht⟩ := reads_first_incomplete hh hb
  obtain ⟨conn₁, hfeeds₁⟩ := hfeeds.take k
  have hnone := produced_of_reads hfeeds₁ (hpre ▸ ht)
  have hpos := htime hk.ge
  rw [List.map_nil, produced, List.map_eq_nil_iff] at hnone
  rw [hnone] at hpos
  exact absurd hpos (lt_irrefl _)

theorem deliverable_of_roundTrips (hcut : chunks.flatten = encodes msgs)
    (h : RoundTrips fd msgs chunks) : Deliverable msgs chunks := by
  obtain ⟨conn, rs, hfeeds, hout, htime⟩ := h
  cases msgs with
  | nil => trivial
  | cons m ms =>
    rw [encodes_cons] at hcut
    obtain ⟨c, hc, rfl⟩ : ∃ c, (produced chunks rs)[([] : List Frame).length]? = some c ∧
        c.message = m := next_content hout
    obtain ⟨hlen, hmore, f, hf, hnext⟩ := next_first hfeeds hcut hc
    have hout' : (produced chunks rs).map Content.message =
        ([] ++ [f]).map (fun f : Frame => f.content.message) ++ ms := by
      rw [hout, List.nil_append, List.map_singleton, hf]
      rfl
    have htail := tail_giants (i := 0) hfeeds hnext hout'
    rw [Nat.zero_add] at htail
    refine ⟨hlen, ?_, htail⟩
    intro hempty
    constructor
    · rintro rfl
      have hbody : c.body = [] := hempty
      rw [hbody] at hmore
      exact hmore rfl
    · intro k
      apply not_cut_behind hfeeds hcut hlen.1 hempty
      intro hle
      exact htime k 0 (Nat.succ_pos _) (by simpa [encodes] using hle)

/-- Copies of the magic bytes are read as giants, as long as they last. -/
theorem visits_giants (mg : List UInt8) (start : ℕ) (j : ℕ) (rest : List UInt8) :
    ∃ stop fs, frameReader.Visits ⟨.between mg start, []⟩ (pengs (j * (2 + 2 * giantWords)) ++ rest)
      ⟨.between mg stop, []⟩ rest fs ∧
      fs.map (fun f => f.content.message) = List.replicate j giant := by
  induction j generalizing start with
  | zero =>
    rw [Nat.zero_mul]
    exact ⟨start, [], .refl _ _, rfl⟩
  | succ j ih =>
    obtain ⟨f, hf, hgiant⟩ := visits_giant mg start (pengs (j * (2 + 2 * giantWords)) ++ rest)
    obtain ⟨stop, fs, hfs, hgiants⟩ := ih f.stop
    have hin : pengs ((j + 1) * (2 + 2 * giantWords)) ++ rest =
        pengs (2 + 2 * giantWords) ++ (pengs (j * (2 + 2 * giantWords)) ++ rest) := by
      rw [Nat.succ_mul, Nat.add_comm, pengs_add, List.append_assoc]
    rw [hin]
    refine ⟨stop, f :: fs, hf.trans hfs, ?_⟩
    rw [List.map_cons, hgiant, hgiants, List.replicate_succ]

/-- Fewer magic bytes than a giant takes complete nothing. -/
theorem reads_leftover (mg : List UInt8) (start : ℕ) {j : ℕ} (hj : j < 2 + 2 * giantWords) :
    ∃ t, frameReader.Reads ⟨.between mg start, []⟩ (pengs j) t [] := by
  have htake : 8 ≤ (pengs j).length → (pengs j).take 8 = MAGIC ++ MAGIC := by
    intro h8
    rw [length_pengs] at h8
    obtain ⟨r, rfl⟩ := Nat.exists_eq_add_of_le (show 2 ≤ j by omega)
    rw [Nat.add_comm]
    rfl
  have hnn : NonnegAtHead (pengs j) := by
    intro h8
    rw [htake h8, rpcHeaderLength_magic, rpcBodyLength_magic]
    omega
  have hc : ¬ Completed (pengs j) := by
    rintro ⟨h8, hall, -⟩
    rw [frameLength, htake h8, rpcHeaderLength_magic, rpcBodyLength_magic, length_pengs] at hall
    omega
  by_cases hnil : pengs j = []
  · rw [hnil]
    exact ⟨_, .refl _ _⟩
  · obtain ⟨t, ht⟩ := reads_of_not_completed mg start hc hnn
    exact ⟨t, (visits_between hnil).trans ht⟩

theorem encodes_giants (j : ℕ) : encodes (List.replicate j giant) =
    pengs (j * (2 + 2 * giantWords)) ++ pengs j := by
  rw [encodes_replicate_giant, ← pengs_add]
  congr 1

/-- The first message and the giants behind it are read. -/
theorem visits_messages (hh : m.header.length < 2147483648) (hb : m.body.length < 2147483648)
    (i : ℕ) (hne : m.body ++ (pengs (i * (2 + 2 * giantWords)) ++ rest) ≠ []) :
    ∃ stop fs, frameReader.Visits fresh
      (m.encode ++ (pengs (i * (2 + 2 * giantWords)) ++ rest)) ⟨.between MAGIC stop, []⟩ rest fs ∧
      fs.map (fun f => f.content.message) = m :: List.replicate i giant := by
  obtain ⟨f, hf, hm⟩ := visits_first hh hb hne
  obtain ⟨stop, fs, hfs, hgiants⟩ := visits_giants MAGIC f.stop i rest
  exact ⟨stop, f :: fs, hf.trans hfs, by rw [List.map_cons, hm, hgiants]⟩

theorem roundTrips_of_deliverable (fd : ℤ) (hcut : chunks.flatten = encodes msgs)
    (h : Deliverable msgs chunks) : RoundTrips fd msgs chunks := by
  cases msgs with
  | nil =>
    have hr : frameReader.Reads fresh chunks.flatten fresh [] := by
      rw [hcut]
      exact .refl _ _
    obtain ⟨conn, rs, hfeeds, hout, -⟩ := feeds_observed fd hr
    exact ⟨conn, rs, hfeeds, by rw [produced, hout]; rfl, fun _ _ hi => absurd hi (Nat.not_lt_zero _)⟩
  | cons m ms =>
    obtain ⟨⟨hh, hb⟩, hempty, hms, hlt⟩ := h
    -- all that is sent is read: the first message, the giants, and too little for another
    have hall : ∃ t fs, frameReader.Reads fresh chunks.flatten t fs ∧
        fs.map (fun f => f.content.message) = m :: ms := by
      have hne : m.body ++ (pengs (ms.length * (2 + 2 * giantWords)) ++ pengs ms.length) ≠ [] := by
        intro hnil
        obtain ⟨hbody, hnil⟩ := List.append_eq_nil_iff.mp hnil
        have hpos := List.length_pos_iff.mpr (hempty hbody).1
        have hlen := congrArg List.length (List.append_eq_nil_iff.mp hnil).2
        rw [length_pengs, List.length_nil] at hlen
        omega
      obtain ⟨stop, fs, hfs, hmsgs⟩ := visits_messages hh hb ms.length hne
      obtain ⟨t, ht⟩ := reads_leftover MAGIC stop hlt
      rw [← encodes_giants, ← hms, ← encodes_cons, ← hcut] at hfs
      refine ⟨t, fs, ?_, by rw [hmsgs, ← hms]⟩
      have hr := hfs.trans ht
      rwa [List.append_nil] at hr
    obtain ⟨t, fs, hr, hmsgs⟩ := hall
    obtain ⟨conn, rs, hfeeds, hout, -⟩ := feeds_observed fd hr
    refine ⟨conn, rs, hfeeds, ?_, ?_⟩
    · rw [produced, hout, List.map_map, ← hmsgs]
      rfl
    intro k i hi hle
    rw [List.length_cons] at hi
    have htake : ms.take i = List.replicate i giant := by
      rw [hms, List.take_replicate, Nat.min_eq_left (by omega)]
    rw [List.take_succ_cons, encodes_cons, htake, encodes_giants] at hle
    -- the messages up to this one lie in front of the bytes received so far
    obtain ⟨rest, hrest⟩ : m.encode ++ (pengs (i * (2 + 2 * giantWords)) ++ pengs i) <+:
        (chunks.take k).flatten := by
      apply List.prefix_of_prefix_length_le _ _ hle
      · exact chunks.flatten
      · rw [hcut, encodes_cons, ← encodes_giants, ← htake, List.prefix_append_right_inj]
        conv_rhs => rw [← List.take_append_drop i ms, encodes, List.flatMap_append]
        exact List.prefix_append _ _
      · conv_rhs => rw [← List.take_append_drop k chunks, List.flatten_append]
        exact List.prefix_append _ _
    simp only [List.append_assoc] at hrest
    have hne : m.body ++ (pengs (i * (2 + 2 * giantWords)) ++ (pengs i ++ rest)) ≠ [] := by
      intro hnil
      obtain ⟨hbody, hnil⟩ := List.append_eq_nil_iff.mp hnil
      rw [hnil, List.append_nil] at hrest
      exact (hempty hbody).2 k (congrArg List.length hrest.symm)
    obtain ⟨stop, fs', hfs', hmsgs'⟩ := visits_messages hh hb i hne
    rw [hrest] at hfs'
    obtain ⟨conn₁, hfeeds₁⟩ := hfeeds.take k
    have hpre := (frames_produced hfeeds₁ hfs').length_le
    have hcount := congrArg List.length hmsgs'
    simp only [List.length_map, List.length_cons, List.length_replicate, produced] at hpre hcount
    omega

/-- The messages come back, each in time, exactly when only the first one is not a giant, its
lengths fit and no call ends with it if its body is empty. -/
theorem roundTrips_iff (fd : ℤ) (msgs : List Message) (chunks : List (List UInt8))
    (hcut : chunks.flatten = encodes msgs) :
    RoundTrips fd msgs chunks ↔ Deliverable msgs chunks :=
  ⟨deliverable_of_roundTrips hcut, roundTrips_of_deliverable fd hcut⟩

/-- The message that `client.cpp` sends: a request for "hello", and its body. -/
def clientMessage : Message where
  header := [0x08, 0x01, 0x12, 0x05, 0x68, 0x65, 0x6c, 0x6c, 0x6f]
  body := [0x0a, 0x05, 0x68, 0x65, 0x6c, 0x6c, 0x6f]

/-- Sent once, in two pieces, it comes back. -/
theorem roundTrips_iff_once :
    RoundTrips 7 [clientMessage] [clientMessage.encode.take 7, clientMessage.encode.drop 7] :=
  (roundTrips_iff 7 [clientMessage] [clientMessage.encode.take 7, clientMessage.encode.drop 7]
    (by decide)).mpr ⟨by decide, fun h => (by cases h), rfl, by decide⟩

/-- Sent twice it comes back once. -/
theorem clientMessage_twice : ¬ ∀ (msgs : List Message) (chunks : List (List UInt8)),
    (∀ chunk ∈ chunks, chunk ≠ []) → chunks.flatten = encodes msgs → RoundTrips 7 msgs chunks := by
  intro h
  have htrip := h [clientMessage, clientMessage] [encodes [clientMessage, clientMessage]]
    (by decide) (by decide)
  have hgiant := (deliverable_of_roundTrips (by decide) htrip).2.2.1
  have hheader : clientMessage.header = pengs giantWords :=
    congrArg Message.header (List.head_eq_of_cons_eq hgiant)
  have hlen := congrArg List.length hheader
  rw [length_pengs, giantWords] at hlen
  revert hlen
  decide

end Messages

end MgRaffle.MgServer
