import MgRaffle.Library.Varint
import MgRaffle.MgServer.RoundTrip

namespace MgRaffle.MgServer
open Collector

/-- `M::RpcHeader`: the optional fields that are set, and the fields it does not know as they
came. -/
structure RpcHeader where
  type : Option ℤ
  func : Option (List UInt8)
  timeout : Option (List UInt8)
  unknownFields : List UInt8
  deriving Repr, DecidableEq

structure HelloRes where
  name : Option (List UInt8)
  unknownFields : List UInt8
  deriving Repr, DecidableEq

def RPC_TYPE_RPC_REQUEST : ℤ := 1

def RPC_TYPE_RPC_RESPONSE : ℤ := 2

section Wire

/-- An enumeration value goes out as an unsigned 64-bit integer. -/
def enumValue (v : ℤ) : ℕ := (v % 18446744073709551616).toNat

def enumSize (v : ℤ) : ℕ := Varint.size 10 (enumValue v)

def stringSize (s : List UInt8) : ℕ := Varint.size 5 s.length + s.length

def writeEnum (field : ℕ) (v : ℤ) : List UInt8 :=
  UInt8.ofNat (field * 8) :: Varint.encode 10 (enumValue v)

def writeString (field : ℕ) (s : List UInt8) : List UInt8 :=
  UInt8.ofNat (field * 8 + 2) :: (Varint.encode 5 s.length ++ s)

namespace RpcHeader

def timeoutSize (h : RpcHeader) : ℕ := (h.timeout.map fun s => 1 + stringSize s).getD 0

def byteSizeLong (h : RpcHeader) : ℕ :=
  (h.func.map fun s => 1 + stringSize s).getD 0 + h.timeoutSize +
    (h.type.map fun v => 1 + enumSize v).getD 0 + h.unknownFields.length

def serialize (h : RpcHeader) : List UInt8 :=
  (h.type.map (writeEnum 1)).getD [] ++ (h.func.map (writeString 2)).getD [] ++
    (h.timeout.map (writeString 3)).getD [] ++ h.unknownFields

/-- `func()`: the empty string where the field is not set. -/
def getFunc (h : RpcHeader) : List UInt8 := h.func.getD []

end RpcHeader

namespace HelloRes

def new : HelloRes := ⟨none, []⟩

def byteSizeLong (res : HelloRes) : ℕ :=
  (res.name.map fun s => 1 + stringSize s).getD 0 + res.unknownFields.length

def serialize (res : HelloRes) : List UInt8 :=
  (res.name.map (writeString 1)).getD [] ++ res.unknownFields

end HelloRes

theorem length_writeString (field : ℕ) (s : List UInt8) :
    (writeString field s).length = 1 + stringSize s := by
  rw [writeString, List.length_cons, List.length_append, Varint.length_encode, stringSize]
  omega

theorem length_writeEnum (field : ℕ) (v : ℤ) : (writeEnum field v).length = 1 + enumSize v := by
  rw [writeEnum, List.length_cons, Varint.length_encode, enumSize]
  omega

/-- `ByteSizeLong` is what `SerializeToArray` writes. -/
theorem length_serialize (h : RpcHeader) : h.serialize.length = h.byteSizeLong := by
  obtain ⟨type, func, timeout, unknown⟩ := h
  cases type <;> cases func <;> cases timeout <;>
    simp only [RpcHeader.serialize, RpcHeader.byteSizeLong, RpcHeader.timeoutSize, Option.map_some,
      Option.map_none, Option.getD_some, Option.getD_none, List.length_append, List.length_nil,
      length_writeString, length_writeEnum] <;>
    omega

theorem HelloRes.length_serialize (res : HelloRes) : res.serialize.length = res.byteSizeLong := by
  obtain ⟨name, unknown⟩ := res
  cases name <;> simp [HelloRes.serialize, HelloRes.byteSizeLong, length_writeString]

end Wire

/-- The bytes of "hello". -/
def HELLO : List UInt8 := [0x68, 0x65, 0x6c, 0x6c, 0x6f]

/-- `HelloTask::Run`: the name is "world". -/
def helloTask (res : HelloRes) : HelloRes := { res with name := some [0x77, 0x6f, 0x72, 0x6c, 0x64] }

/-- What `do_response` writes into the buffer that it takes from the pool. -/
def responseBytes (header : RpcHeader) (res : HelloRes) : List UInt8 :=
  MAGIC ++ (MLengthHeader.encode header.byteSizeLong res.byteSizeLong ++
    (header.serialize ++ res.serialize))

/-- What a bounded parse may read: `TotalBytes()` of what the read buffer delivers. -/
def MReadBuf.bounded (store : BufId → List UInt8) (r : MReadBuf) : List UInt8 :=
  (r.pending store).take r.totalBytes.toNat

/-- `do_request` for one request. `parse` is the header that protobuf makes of bytes; whether
it met an error is not looked at. -/
def doRequest (parse : List UInt8 → RpcHeader) (store : BufId → List UInt8) (r : MRequest) :
    Option (List UInt8) :=
  let header := parse (r.rpcHeaderBuf.bounded store)
  if header.getFunc = HELLO then
    some (responseBytes { header with type := some RPC_TYPE_RPC_RESPONSE } (helloTask .new))
  else none

section Fits

/-- What a header sends back besides the type and the name of the function. -/
def RpcHeader.echoed (h : RpcHeader) : ℕ := h.timeoutSize + h.unknownFields.length

theorem length_responseBytes (header : RpcHeader) (res : HelloRes) :
    (responseBytes header res).length = 4 + 8 + header.byteSizeLong + res.byteSizeLong := by
  simp only [responseBytes, List.length_append, length_serialize, HelloRes.length_serialize,
    length_encode, MAGIC, List.length_cons, List.length_nil]
  omega

/-- Everything but what is echoed has a fixed size. -/
theorem byteSizeLong_eq {h : RpcHeader} {v : ℤ} (hf : h.getFunc = HELLO) (ht : h.type = some v)
    (hv : enumSize v = 1) : h.byteSizeLong = 9 + h.echoed := by
  have hfunc : h.func = some HELLO := by
    cases hh : h.func with
    | none => simp [RpcHeader.getFunc, hh, HELLO] at hf
    | some s =>
      rw [RpcHeader.getFunc, hh, Option.getD_some] at hf
      rw [hf]
  have hfs : stringSize HELLO = 6 := rfl
  simp only [RpcHeader.byteSizeLong, RpcHeader.echoed, hfunc, ht, Option.map_some, Option.getD_some,
    hfs, hv]
  omega

theorem length_response {h : RpcHeader} (hf : h.getFunc = HELLO) :
    (responseBytes { h with type := some RPC_TYPE_RPC_RESPONSE } (helloTask .new)).length =
      28 + h.echoed := by
  have hrs : (helloTask .new).byteSizeLong = 7 := rfl
  have hsize := @byteSizeLong_eq { h with type := some RPC_TYPE_RPC_RESPONSE } _ hf rfl rfl
  rw [length_responseBytes, hrs, hsize]
  simp only [RpcHeader.echoed, RpcHeader.timeoutSize]
  omega

theorem Holds.bounded_eq {store : BufId → List UInt8} {r : MReadBuf} {bs : List UInt8}
    (h : Holds store r bs) : r.bounded store = bs := by
  rw [MReadBuf.bounded, h.bytes, h.total, Int.toNat_natCast, List.take_length]

/-- A response fits its buffer exactly when the timeout and the unknown fields of the request
leave room for the rest. -/
theorem response_fits_iff (parse : List UInt8 → RpcHeader) (store : BufId → List UInt8)
    (r : MRequest) :
    (∀ resp ∈ doRequest parse store r, resp.length ≤ POOL_BUFFER_CAPACITY) ↔
      ((parse (r.rpcHeaderBuf.bounded store)).getFunc = HELLO →
        (parse (r.rpcHeaderBuf.bounded store)).echoed ≤ 996) := by
  by_cases hf : (parse (r.rpcHeaderBuf.bounded store)).getFunc = HELLO
  · have hlen := length_response hf
    rw [doRequest, if_pos hf]
    constructor
    · intro h _
      have hle := h _ rfl
      rw [hlen, POOL_BUFFER_CAPACITY] at hle
      omega
    · rintro h resp ⟨⟩
      have hle := h hf
      rw [hlen, POOL_BUFFER_CAPACITY]
      omega
  · rw [doRequest, if_neg hf]
    exact iff_of_true (fun resp h => by cases h) (fun h => absurd h hf)

/-- Without unknown fields a timeout of up to 993 bytes fits. -/
theorem echoed_le_iff {h : RpcHeader} {s : List UInt8} (hu : h.unknownFields = [])
    (hs : h.timeout = some s) : h.echoed ≤ 996 ↔ s.length ≤ 993 := by
  have hle := Varint.one_le_size 4 s.length
  simp only [RpcHeader.echoed, RpcHeader.timeoutSize, hu, hs, Option.map_some, Option.getD_some,
    stringSize, List.length_nil]
  rcases lt_or_ge s.length 128 with hlt | hge
  · rw [Varint.size_eq_one hlt]
    omega
  · rcases lt_or_ge s.length 16384 with hlt | hge'
    · rw [Varint.size_eq_two hge hlt]
      omega
    · omega

/-- A request for "hello" whose timeout is a string of 1100 bytes. -/
def longTimeout : RpcHeader := ⟨some RPC_TYPE_RPC_REQUEST, some HELLO, some (List.replicate 1100 0x78), []⟩

def longMessage : Message := ⟨longTimeout.serialize, clientMessage.body⟩

/-- It comes in over two receive buffers, and its response does not fit one. -/
theorem longMessage_overflows : ∃ conn rs,
    Feeds 0 (.new 7) [longMessage.encode.take 1024, longMessage.encode.drop 1024] conn rs ∧
    ∃ r ∈ rs.flatten, ∀ parse : List UInt8 → RpcHeader, parse longTimeout.serialize = longTimeout →
      ∃ resp ∈ doRequest parse
        (storeOf [longMessage.encode.take 1024, longMessage.encode.drop 1024]) r,
        POOL_BUFFER_CAPACITY < resp.length := by
  -- named, so that no step below computes with the 1100 bytes
  generalize hchunks : [longMessage.encode.take 1024, longMessage.encode.drop 1024] = chunks
  have hcut : chunks.flatten = longMessage.encode ++ [] := by
    rw [← hchunks, List.flatten_cons, List.flatten_cons, List.flatten_nil, List.append_nil,
      List.append_nil, List.take_append_drop]
  have hecho : longTimeout.echoed = 1103 := by
    simp only [RpcHeader.echoed, RpcHeader.timeoutSize, longTimeout, Option.map_some,
      Option.getD_some, stringSize, List.length_replicate, List.length_nil]
    rw [Varint.size_eq_two (by norm_num) (by norm_num)]
  have hheader : longMessage.header.length < 2147483648 := by
    rw [longMessage, length_serialize, byteSizeLong_eq rfl rfl rfl, hecho]
    norm_num
  obtain ⟨f, hr, hmsg⟩ := visits_first hheader (by decide)
    (by simp [longMessage, clientMessage] : longMessage.body ++ [] ≠ [])
  rw [← hcut] at hr
  obtain ⟨conn, rs, hfeeds, -, hreqs⟩ := feeds_fresh 7 hr
  obtain ⟨r, hreq, hrs⟩ : ∃ r, IsRequest (storeOf chunks) (baseOf chunks) r f ∧ [r] = rs.flatten := by
    obtain ⟨r, tail, hreq, hnil, hrs⟩ := List.forall₂_cons_right_iff.mp hreqs
    rw [List.forall₂_nil_right_iff.mp hnil] at hrs
    exact ⟨r, hreq, hrs.symm⟩
  have hbytes : r.rpcHeaderBuf.bounded (storeOf chunks) = longTimeout.serialize := by
    rw [hreq.header.bounded_eq]
    exact congrArg Message.header hmsg
  refine ⟨conn, rs, hfeeds, r, by rw [← hrs]; exact List.mem_singleton.mpr rfl, ?_⟩
  intro parse hparse
  have hf : (parse (r.rpcHeaderBuf.bounded (storeOf chunks))).getFunc = HELLO := by
    rw [hbytes, hparse]
    rfl
  refine ⟨_, by rw [doRequest, if_pos hf]; rfl, ?_⟩
  rw [length_response hf, hbytes, hparse, hecho]
  norm_num [POOL_BUFFER_CAPACITY]

end Fits

end MgRaffle.MgServer
