import MgRaffle.Library.WireFormat
import MgRaffle.MgServer.Response

namespace MgRaffle.MgServer
open WireFormat

/-- `static_cast<RpcType>`: an enumeration is 32 bits wide. -/
def enumOf (val : ℕ) : ℤ :=
  if val % 4294967296 < 2147483648 then (val % 4294967296 : ℕ)
  else (val % 4294967296 : ℕ) - 4294967296

namespace RpcHeader

def new : RpcHeader := ⟨none, none, none, []⟩

def getTimeout (h : RpcHeader) : List UInt8 := h.timeout.getD []

def setType (h : RpcHeader) (val : ℕ) : RpcHeader := { h with type := some (enumOf val) }

def setFunc (h : RpcHeader) (str : List UInt8) : RpcHeader := { h with func := some str }

def setTimeout (h : RpcHeader) (str : List UInt8) : RpcHeader := { h with timeout := some str }

/-- The `switch` of `RpcHeader::_InternalParse`. -/
def schema : Schema RpcHeader where
  case tag :=
    match tag / 8 with
    | 1 => if tag % 256 = 8 then .varint setType else .unusual
    | 2 => if tag % 256 = 18 then .string getFunc setFunc else .unusual
    | 3 => if tag % 256 = 26 then .string getTimeout setTimeout else .unusual
    | _ => .unusual
  keep h kept := { h with unknownFields := h.unknownFields ++ kept }

/-- `ParseFromArray`, and what the message is left as. -/
def parse (wire : Reader) (bs : List UInt8) : RpcHeader × Ending := schema.parse wire new bs

/-- A field that is set in `src` replaces the one of `h`. -/
def mergeFrom (h src : RpcHeader) : RpcHeader where
  type := src.type <|> h.type
  func := src.func <|> h.func
  timeout := src.timeout <|> h.timeout
  unknownFields := h.unknownFields ++ src.unknownFields

/-- A header that can be sent. -/
structure Valid (wire : Reader) (h : RpcHeader) : Prop where
  type : ∀ v ∈ h.type, -2147483648 ≤ v ∧ v ≤ 2147483647
  func : ∀ s ∈ h.func, wire.Text s
  timeout : ∀ s ∈ h.timeout, wire.Text s
  unknown : wire.Unknown schema h.unknownFields

end RpcHeader

namespace HelloRes

def getName (res : HelloRes) : List UInt8 := res.name.getD []

def setName (res : HelloRes) (str : List UInt8) : HelloRes := { res with name := some str }

/-- The `switch` of `HelloRes::_InternalParse`. -/
def schema : Schema HelloRes where
  case tag :=
    match tag / 8 with
    | 1 => if tag % 256 = 10 then .string getName setName else .unusual
    | _ => .unusual
  keep res kept := { res with unknownFields := res.unknownFields ++ kept }

def parse (wire : Reader) (bs : List UInt8) : HelloRes × Ending := schema.parse wire new bs

def mergeFrom (res src : HelloRes) : HelloRes where
  name := src.name <|> res.name
  unknownFields := res.unknownFields ++ src.unknownFields

structure Valid (wire : Reader) (res : HelloRes) : Prop where
  name : ∀ s ∈ res.name, wire.Text s
  unknown : wire.Unknown schema res.unknownFields

end HelloRes

/-- `M::HelloReq` has the one field of `M::HelloRes`, and is read and written in the same way. -/
abbrev HelloReq := HelloRes

section Fields

variable {wire : Reader}

theorem encode_writeEnum (v : ℤ) : (Field.varint 8 (enumValue v)).encode = writeEnum 1 v := rfl

theorem encode_writeString (n : ℕ) (hn : n < 16) (s : List UInt8) :
    (Field.string (n * 8 + 2) s).encode = writeString n s := by
  rw [Field.encode, Varint.encode, if_pos (by omega)]
  rfl

theorem enumOf_enumValue {v : ℤ} (h : -2147483648 ≤ v) (h' : v ≤ 2147483647) :
    enumOf (enumValue v) = v := by
  have hval : ((enumValue v : ℕ) : ℤ) = v % 18446744073709551616 :=
    Int.toNat_of_nonneg (Int.emod_nonneg _ (by norm_num))
  unfold enumOf
  split_ifs <;> omega

theorem enumValue_lt (v : ℤ) : enumValue v < 18446744073709551616 := by
  have hval : ((enumValue v : ℕ) : ℤ) = v % 18446744073709551616 :=
    Int.toNat_of_nonneg (Int.emod_nonneg _ (by norm_num))
  omega

theorem enumOf_bounds (val : ℕ) : -2147483648 ≤ enumOf val ∧ enumOf val ≤ 2147483647 := by
  unfold enumOf
  split_ifs <;> omega

theorem RpcHeader.case_cases (tag : ℕ) : schema.case tag = .varint setType ∨
    schema.case tag = .string getFunc setFunc ∨ schema.case tag = .string getTimeout setTimeout ∨
    schema.case tag = .unusual := by
  simp only [schema]
  split <;> try split_ifs <;> simp
  simp

theorem HelloRes.case_cases (tag : ℕ) :
    schema.case tag = .string getName setName ∨ schema.case tag = .unusual := by
  simp only [schema]
  split <;> try split_ifs <;> simp
  simp

/-- The fields of a header, as `_InternalSerialize` writes them. -/
def RpcHeader.fields (h : RpcHeader) (kept : List (List UInt8)) : List Field :=
  (h.type.toList.map fun v => .varint 8 (enumValue v)) ++
    (h.func.toList.map (.string 18) ++ (h.timeout.toList.map (.string 26) ++ kept.map .unknown))

end Fields

section Messages

variable {wire : Reader} {f : Field}

theorem RpcHeader.valid_apply {h : RpcHeader} (hv : h.Valid wire) (hf : f.Valid wire schema) :
    (f.apply schema h).Valid wire := by
  cases hf with
  | @varint tag val _ htag hcase hval =>
    rcases case_cases tag with hc | hc | hc | hc <;> rw [hc] at hcase <;> cases hcase
    simp only [Field.apply, hc]
    exact { hv with type := fun v hval => by cases hval; exact enumOf_bounds val }
  | @string tag str _ _ htag hcase hstr =>
    rcases case_cases tag with hc | hc | hc | hc <;> rw [hc] at hcase <;> cases hcase
    · simp only [Field.apply, hc]
      exact { hv with func := fun s hs => by cases hs; exact hstr }
    · simp only [Field.apply, hc]
      exact { hv with timeout := fun s hs => by cases hs; exact hstr }
  | unknown hk => exact { hv with unknown := hv.unknown.concat hk }

theorem RpcHeader.fields_valid {h : RpcHeader} (hv : h.Valid wire) {kept : List (List UInt8)}
    (hkept : ∀ k ∈ kept, wire.Kept schema k) : ∀ f ∈ h.fields kept, f.Valid wire schema := by
  intro f hf
  simp only [fields, List.mem_append, Option.mem_toList, List.mem_map] at hf
  rcases hf with ⟨v, -, rfl⟩ | ⟨s, hs, rfl⟩ | ⟨s, hs, rfl⟩ | ⟨k, hk, rfl⟩
  · exact .varint (by norm_num) (by rfl) (enumValue_lt v)
  · exact .string (by norm_num) (by rfl) (hv.func s hs)
  · exact .string (by norm_num) (by rfl) (hv.timeout s hs)
  · exact .unknown (hkept k hk)

theorem RpcHeader.encode_fields (h : RpcHeader) (kept : List (List UInt8))
    (hkept : h.unknownFields = kept.flatten) : (h.fields kept).flatMap Field.encode = h.serialize := by
  obtain ⟨type, func, timeout, unknown⟩ := h
  subst hkept
  cases type <;> cases func <;> cases timeout <;>
    simp [fields, serialize, encode_writeEnum, flatMap_unknown, ← encode_writeString]

theorem RpcHeader.foldl_unknown (h : RpcHeader) (kept : List (List UInt8)) :
    (kept.map Field.unknown).foldl (Field.apply schema) h =
      { h with unknownFields := h.unknownFields ++ kept.flatten } := by
  induction kept generalizing h with
  | nil => simp
  | cons k kept ih =>
    rw [List.map_cons, List.foldl_cons, ih]
    simp [Field.apply, schema]

theorem RpcHeader.foldl_fields {h : RpcHeader} (hv : h.Valid wire) {kept : List (List UInt8)}
    (hkept : h.unknownFields = kept.flatten) : (h.fields kept).foldl (Field.apply schema) new = h := by
  have htype : schema.case 8 = .varint setType := rfl
  have hfunc : schema.case 18 = .string getFunc setFunc := rfl
  have htimeout : schema.case 26 = .string getTimeout setTimeout := rfl
  have hv' : ∀ v ∈ h.type, enumOf (enumValue v) = v := fun v h =>
    enumOf_enumValue (hv.type v h).1 (hv.type v h).2
  obtain ⟨type, func, timeout, unknown⟩ := h
  subst hkept
  cases type <;> cases func <;> cases timeout <;>
    simp_all [fields, foldl_unknown, Field.apply, new, setType, setFunc, setTimeout]

/-- The header as a message. -/
def RpcHeader.message : WireFormat.Message RpcHeader where
  toSchema := schema
  new := new
  mergeFrom := mergeFrom
  serialize := serialize
  Valid := Valid
  mergeFrom_new h := by
    obtain ⟨type, func, timeout, unknown⟩ := h
    simp [mergeFrom, new]
  new_mergeFrom h := by
    obtain ⟨type, func, timeout, unknown⟩ := h
    cases type <;> cases func <;> cases timeout <;> simp [mergeFrom, new]
  mergeFrom_assoc a b c := by
    obtain ⟨type, func, timeout, unknown⟩ := c
    cases type <;> cases func <;> cases timeout <;> simp [mergeFrom]
  apply_eq h f := by
    cases f with
    | varint tag val =>
      rcases case_cases tag with hc | hc | hc | hc <;>
        simp [Field.apply, hc, mergeFrom, new, setType]
    | string tag str =>
      rcases case_cases tag with hc | hc | hc | hc <;>
        simp [Field.apply, hc, mergeFrom, new, setFunc, setTimeout]
    | unknown kept => simp [Field.apply, schema, mergeFrom, new]
  valid_new wire := ⟨by simp [new], by simp [new], by simp [new], [], by simp, rfl⟩
  valid_apply := valid_apply
  fields_of_valid {wire h} hv := by
    obtain ⟨kept, hkept, hbytes⟩ := hv.unknown
    exact ⟨h.fields kept, fields_valid hv hkept, (encode_fields h kept hbytes).symm,
      foldl_fields hv hbytes⟩

theorem HelloRes.valid_apply {res : HelloRes} (hv : res.Valid wire) (hf : f.Valid wire schema) :
    (f.apply schema res).Valid wire := by
  cases hf with
  | @varint tag val _ htag hcase hval =>
    rcases case_cases tag with hc | hc <;> rw [hc] at hcase <;> cases hcase
  | @string tag str _ _ htag hcase hstr =>
    rcases case_cases tag with hc | hc <;> rw [hc] at hcase <;> cases hcase
    simp only [Field.apply, hc]
    exact { hv with name := fun s hs => by cases hs; exact hstr }
  | unknown hk => exact { hv with unknown := hv.unknown.concat hk }

/-- The fields of a response, as `_InternalSerialize` writes them. -/
def HelloRes.fields (res : HelloRes) (kept : List (List UInt8)) : List Field :=
  res.name.toList.map (.string 10) ++ kept.map .unknown

theorem HelloRes.foldl_unknown (res : HelloRes) (kept : List (List UInt8)) :
    (kept.map Field.unknown).foldl (Field.apply schema) res =
      { res with unknownFields := res.unknownFields ++ kept.flatten } := by
  induction kept generalizing res with
  | nil => simp
  | cons k kept ih =>
    rw [List.map_cons, List.foldl_cons, ih]
    simp [Field.apply, schema]

def HelloRes.message : WireFormat.Message HelloRes where
  toSchema := schema
  new := new
  mergeFrom := mergeFrom
  serialize := serialize
  Valid := Valid
  mergeFrom_new res := by simp [mergeFrom, new]
  new_mergeFrom res := by
    obtain ⟨name, unknown⟩ := res
    cases name <;> simp [mergeFrom, new]
  mergeFrom_assoc a b c := by
    obtain ⟨name, unknown⟩ := c
    cases name <;> simp [mergeFrom]
  apply_eq res f := by
    cases f with
    | varint tag val =>
      rcases case_cases tag with hc | hc <;> simp [Field.apply, hc, mergeFrom, new]
    | string tag str =>
      rcases case_cases tag with hc | hc <;> simp [Field.apply, hc, mergeFrom, new, setName]
    | unknown kept => simp [Field.apply, schema, mergeFrom, new]
  valid_new wire := ⟨by simp [new], [], by simp, rfl⟩
  valid_apply := valid_apply
  fields_of_valid {wire res} hv := by
    obtain ⟨kept, hkept, hbytes⟩ := hv.unknown
    have hname : schema.case 10 = .string getName setName := rfl
    refine ⟨res.fields kept, ?_, ?_, ?_⟩
    · intro f hf
      simp only [fields, List.mem_append, Option.mem_toList, List.mem_map] at hf
      rcases hf with ⟨s, hs, rfl⟩ | ⟨k, hk, rfl⟩
      · exact .string (by norm_num) hname (hv.name s hs)
      · exact .unknown (hkept k hk)
    · obtain ⟨name, unknown⟩ := res
      subst hbytes
      cases name <;> simp [fields, serialize, flatMap_unknown, ← encode_writeString]
    · obtain ⟨name, unknown⟩ := res
      subst hbytes
      cases name <;> simp [fields, foldl_unknown, Field.apply, hname, new, setName]

end Messages

section Parsing

variable (wire : Reader)

/-- A header is read back from what it is written as; whatever bytes are accepted as a header are
one that reads back; and bytes of two headers, one behind the other, are read as the second
merged into the first. -/
theorem RpcHeader.round_trips :
    (∀ h : RpcHeader, h.Valid wire → parse wire h.serialize = (h, .limit)) ∧
    (∀ bs h, parse wire bs = (h, .limit) → h.Valid wire ∧ parse wire h.serialize = (h, .limit)) ∧
    ∀ xs ys a b, parse wire xs = (a, .limit) → parse wire ys = (b, .limit) →
      parse wire (xs ++ ys) = (a.mergeFrom b, .limit) := by
  refine ⟨fun h hv => message.parse_serialize_new hv, fun bs h hp => ?_, fun xs ys a b ha hb => ?_⟩
  · have hv : h.Valid wire := message.valid_of_parse hp
    exact ⟨hv, message.parse_serialize_new hv⟩
  · exact message.parse_append ha hb

/-- A request for "hello" with a field of the number 4, which a header does not know. -/
def oddHeader : RpcHeader := ⟨some RPC_TYPE_RPC_REQUEST, some HELLO, none, [0x20, 0x01]⟩

theorem valid_oddHeader : oddHeader.Valid plain where
  type v hv := by
    cases hv
    simp [RPC_TYPE_RPC_REQUEST]
  func s hs := by
    cases hs
    exact plain.text_ascii (by decide) (by simp [HELLO])
  timeout s hs := by cases hs
  unknown := by
    refine ⟨[[0x20, 0x01]], fun k hk => ?_, rfl⟩
    rw [List.mem_singleton.mp hk]
    exact ⟨32, [0x01], rfl, rfl, by decide, rfl⟩

theorem RpcHeader.round_trips_odd : parse plain oddHeader.serialize = (oddHeader, .limit) ∧
    parse plain (oddHeader.serialize ++ oddHeader.serialize) =
      (⟨some RPC_TYPE_RPC_REQUEST, some HELLO, none, [0x20, 0x01, 0x20, 0x01]⟩, .limit) := by
  obtain ⟨hback, -, happend⟩ := round_trips plain
  have hodd := hback oddHeader valid_oddHeader
  exact ⟨hodd, happend _ _ _ _ hodd hodd⟩

end Parsing

end MgRaffle.MgServer
