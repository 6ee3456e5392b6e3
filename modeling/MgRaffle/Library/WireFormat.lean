import MgRaffle.Library.Varint

namespace WireFormat

/-- What the parsers that are generated for messages call. A string, or a field of an unknown
number, is left as far as it was read where it does not end well. -/
structure Reader where
  readTag : List UInt8 → Option (ℕ × List UInt8)
  readVarint64 : List UInt8 → Option (ℕ × List UInt8)
  readString : List UInt8 → List UInt8 → List UInt8 × Option (List UInt8)
  verifyUtf8 : List UInt8 → Bool
  unknownField : ℕ → List UInt8 → List UInt8 × Option (List UInt8)
  /-- the length of the longest string, which is in the gigabytes -/
  maxSize : ℕ
  maxSize_bounds : 1073741824 ≤ maxSize ∧ maxSize < 2147483648
  readTag_encode : ∀ tag < 4294967296, readTag (Varint.encode 5 tag) = some (tag, [])
  readTag_append : ∀ {bs tag rest}, readTag bs = some (tag, rest) →
    ∀ more, readTag (bs ++ more) = some (tag, rest ++ more)
  readTag_bound : ∀ {bs tag rest}, readTag bs = some (tag, rest) →
    tag < 4294967296 ∧ rest.length < bs.length
  readVarint64_encode : ∀ n < 18446744073709551616, readVarint64 (Varint.encode 10 n) = some (n, [])
  readVarint64_append : ∀ {bs n rest}, readVarint64 bs = some (n, rest) →
    ∀ more, readVarint64 (bs ++ more) = some (n, rest ++ more)
  readVarint64_bound : ∀ {bs n rest}, readVarint64 bs = some (n, rest) →
    n < 18446744073709551616 ∧ rest.length ≤ bs.length
  verifyUtf8_ascii : ∀ s : List UInt8, (∀ c ∈ s, c < 128) → verifyUtf8 s = true
  readString_encode : ∀ s : List UInt8, s.length ≤ maxSize →
    ∀ old, readString old (Varint.encode 5 s.length ++ s) = (s, some [])
  readString_append : ∀ {old bs s rest}, readString old bs = (s, some rest) →
    ∀ old' more, readString old' (bs ++ more) = (s, some (rest ++ more))
  readString_bound : ∀ {old bs s rest}, readString old bs = (s, some rest) →
    s.length ≤ maxSize ∧ rest.length ≤ bs.length
  /-- What is kept of an unknown field is read as that field again. -/
  unknownField_kept : ∀ {bs tag bs' kept rest}, readTag bs = some (tag, bs') →
    unknownField tag bs' = (kept, some rest) →
    ∃ payload, readTag kept = some (tag, payload) ∧ unknownField tag payload = (kept, some [])
  unknownField_append : ∀ {tag bs kept rest}, unknownField tag bs = (kept, some rest) →
    ∀ more, unknownField tag (bs ++ more) = (kept, some (rest ++ more))
  unknownField_bound : ∀ {tag bs kept rest}, unknownField tag bs = (kept, some rest) →
    rest.length ≤ bs.length

/-- What the `switch` of a generated parser does at a tag. -/
inductive Case (M : Type*)
  | varint (set : M → ℕ → M)
  | string (get : M → List UInt8) (set : M → List UInt8 → M)
  | unusual

/-- What is generated for a message: the `switch`, and where unknown fields go. -/
structure Schema (M : Type*) where
  case : ℕ → Case M
  keep : M → List UInt8 → M

/-- What the parse of one field leaves. -/
inductive Turn (M : Type*)
  | next (m : M) (rest : List UInt8)
  | done (m : M) (tag : ℕ)
  | failure (m : M)

/-- How the parse of a message ends: behind its last field, at a tag that is none, or where the
bytes are malformed. -/
inductive Ending
  | limit
  | tag (t : ℕ)
  | failure
  deriving Repr, DecidableEq

variable {M : Type*}

namespace Schema

/-- A turn of the loop of `_InternalParse`. -/
def turn (S : Schema M) (wire : Reader) (m : M) (bs : List UInt8) : Turn M :=
  match wire.readTag bs with
  | none => .failure m
  | some (tag, rest) =>
    match S.case tag with
    | .varint set =>
      match wire.readVarint64 rest with
      | none => .failure m
      | some (val, rest) => .next (set m val) rest
    | .string get set =>
      match wire.readString (get m) rest with
      | (str, none) => .failure (set m str)
      | (str, some rest) =>
        if wire.verifyUtf8 str then .next (set m str) rest else .failure (set m str)
    | .unusual =>
      if tag = 0 ∨ tag % 8 = 4 then .done m tag
      else
        match wire.unknownField tag rest with
        | (kept, none) => .failure (S.keep m kept)
        | (kept, some rest) => .next (S.keep m kept) rest

end Schema

/-- A field as it is read, whatever the message it goes to. -/
inductive Field
  | varint (tag val : ℕ)
  | string (tag : ℕ) (str : List UInt8)
  | unknown (kept : List UInt8)

namespace Field

def encode : Field → List UInt8
  | varint tag val => Varint.encode 5 tag ++ Varint.encode 10 val
  | string tag str => Varint.encode 5 tag ++ (Varint.encode 5 str.length ++ str)
  | unknown kept => kept

/-- What the field does to a message. -/
def apply (S : Schema M) (m : M) : Field → M
  | varint tag val =>
    match S.case tag with
    | .varint set => set m val
    | _ => m
  | string tag str =>
    match S.case tag with
    | .string _ set => set m str
    | _ => m
  | unknown kept => S.keep m kept

end Field

/-- A string that a message can hold. -/
structure Reader.Text (wire : Reader) (s : List UInt8) : Prop where
  size : s.length ≤ wire.maxSize
  utf8 : wire.verifyUtf8 s = true

/-- What is kept of a field whose tag a message does not know. -/
def Reader.Kept (wire : Reader) (S : Schema M) (kept : List UInt8) : Prop :=
  ∃ tag payload, wire.readTag kept = some (tag, payload) ∧ S.case tag = .unusual ∧
    ¬ (tag = 0 ∨ tag % 8 = 4) ∧ wire.unknownField tag payload = (kept, some [])

/-- A field that a message can have. -/
inductive Field.Valid (wire : Reader) (S : Schema M) : Field → Prop
  | varint {tag val : ℕ} {set : M → ℕ → M} (htag : tag < 4294967296) (hcase : S.case tag = .varint set)
      (hval : val < 18446744073709551616) : Valid wire S (.varint tag val)
  | string {tag : ℕ} {str : List UInt8} {get : M → List UInt8} {set : M → List UInt8 → M}
      (htag : tag < 4294967296) (hcase : S.case tag = .string get set) (hstr : wire.Text str) :
      Valid wire S (.string tag str)
  | unknown {kept : List UInt8} (h : wire.Kept S kept) : Valid wire S (.unknown kept)

section Reading

variable {S : Schema M} {wire : Reader} {m m' : M} {bs rest : List UInt8} {f : Field}

/-- A field that was written is read again, whatever stands behind it. -/
theorem turn_encode (h : f.Valid wire S) (m : M) (rest : List UInt8) :
    S.turn wire m (f.encode ++ rest) = .next (f.apply S m) rest := by
  cases h with
  | @varint tag val set htag hcase hval =>
    have ht := wire.readTag_append (wire.readTag_encode tag htag) (Varint.encode 10 val ++ rest)
    have hv := wire.readVarint64_append (wire.readVarint64_encode val hval) rest
    rw [List.nil_append] at ht hv
    simp only [Schema.turn, Field.encode, Field.apply, List.append_assoc, ht, hcase, hv]
  | @string tag str get set htag hcase hstr =>
    have ht := wire.readTag_append (wire.readTag_encode tag htag)
      ((Varint.encode 5 str.length ++ str) ++ rest)
    have hs := wire.readString_append (wire.readString_encode str hstr.size []) (get m) rest
    rw [List.nil_append] at ht hs
    rw [List.append_assoc (Varint.encode 5 str.length)] at ht hs
    simp only [Schema.turn, Field.encode, Field.apply, List.append_assoc, ht, hcase, hs, hstr.utf8,
      if_true]
  | unknown h =>
    obtain ⟨tag, payload, htag, hcase, husual, hkept⟩ := h
    have ht := wire.readTag_append htag rest
    have hk := wire.unknownField_append hkept rest
    rw [List.nil_append] at hk
    simp only [Schema.turn, Field.encode, Field.apply, ht, hcase, if_neg husual, hk]

/-- What a turn reads is a field, whatever the message. -/
theorem field_of_turn (h : S.turn wire m bs = .next m' rest) : ∃ f : Field, f.Valid wire S ∧
    rest.length < bs.length ∧ m' = f.apply S m ∧
    ∀ m more, S.turn wire m (bs ++ more) = .next (f.apply S m) (rest ++ more) := by
  unfold Schema.turn at h
  cases htag : wire.readTag bs with
  | none =>
    rw [htag] at h
    cases h
  | some p =>
    obtain ⟨tag, payload⟩ := p
    obtain ⟨hlt, hlen⟩ := wire.readTag_bound htag
    have happ := wire.readTag_append htag
    simp only [htag] at h
    -- one case for each kind of field; the bytes behind it are only passed on
    cases hcase : S.case tag with
    | varint set =>
      simp only [hcase] at h
      cases hv : wire.readVarint64 payload with
      | none =>
        rw [hv] at h
        cases h
      | some q =>
        obtain ⟨val, rest'⟩ := q
        obtain ⟨hval, hle⟩ := wire.readVarint64_bound hv
        simp only [hv] at h
        cases h
        refine ⟨.varint tag val, .varint hlt hcase hval, hle.trans_lt hlen, ?_, ?_⟩
        · simp only [Field.apply, hcase]
        · intro m more
          simp only [Schema.turn, Field.apply, happ, hcase, wire.readVarint64_append hv]
    | string get set =>
      simp only [hcase] at h
      cases hs : wire.readString (get m) payload with
      | mk str o =>
        cases o with
        | none =>
          simp only [hs] at h
          cases h
        | some rest' =>
          obtain ⟨hsize, hle⟩ := wire.readString_bound hs
          simp only [hs] at h
          split_ifs at h with hutf
          cases h
          refine ⟨.string tag str, .string hlt hcase ⟨hsize, hutf⟩, hle.trans_lt hlen, ?_, ?_⟩
          · simp only [Field.apply, hcase]
          · intro m more
            simp only [Schema.turn, Field.apply, happ, hcase, wire.readString_append hs, hutf, if_true]
    | unusual =>
      simp only [hcase] at h
      split_ifs at h with husual
      cases hk : wire.unknownField tag payload with
      | mk kept o =>
        cases o with
        | none =>
          simp only [hk] at h
          cases h
        | some rest' =>
          simp only [hk] at h
          cases h
          obtain ⟨payload', htag', hkept⟩ := wire.unknownField_kept htag hk
          refine ⟨.unknown kept, .unknown ⟨tag, payload', htag', hcase, husual, hkept⟩,
            (wire.unknownField_bound hk).trans_lt hlen, rfl, ?_⟩
          intro m more
          simp only [Schema.turn, Field.apply, happ, hcase, if_neg husual,
            wire.unknownField_append hk]

theorem turn_length (h : S.turn wire m bs = .next m' rest) : rest.length < bs.length := by
  obtain ⟨f, -, hlen, -⟩ := field_of_turn h
  exact hlen

end Reading

/-- `_InternalParse`: the fields of a message, one after another. -/
def Schema.parse (S : Schema M) (wire : Reader) (m : M) (bs : List UInt8) : M × Ending :=
  if bs = [] then (m, .limit)
  else
    match _h : S.turn wire m bs with
    | .next m' rest => S.parse wire m' rest
    | .done m' tag => (m', .tag tag)
    | .failure m' => (m', .failure)
termination_by bs.length
decreasing_by exact turn_length _h

section Parsing

variable {S : Schema M} {wire : Reader} {m m' : M} {bs rest : List UInt8} {f : Field}
  {fs : List Field}

@[simp] theorem parse_nil : S.parse wire m [] = (m, .limit) := by rw [Schema.parse, if_pos rfl]

theorem parse_next (h : S.turn wire m bs = .next m' rest) :
    S.parse wire m bs = S.parse wire m' rest := by
  have hne : bs ≠ [] := by
    rintro rfl
    exact absurd (turn_length h) (Nat.not_lt_zero _)
  rw [Schema.parse, if_neg hne]
  split <;> rename_i heq <;> rw [h] at heq <;> cases heq
  rfl

theorem parse_done {tag : ℕ} (h : S.turn wire m bs = .done m' tag) (hne : bs ≠ []) :
    S.parse wire m bs = (m', .tag tag) := by
  rw [Schema.parse, if_neg hne]
  split <;> rename_i heq <;> rw [h] at heq <;> cases heq
  rfl

/-- A zero byte ends a message that has no field of the number zero. -/
theorem parse_zero (hcase : S.case 0 = .unusual) (m : M) (rest : List UInt8) :
    S.parse wire m (0 :: rest) = (m, .tag 0) := by
  have htag : wire.readTag (0 :: rest) = some (0, rest) :=
    wire.readTag_append (wire.readTag_encode 0 (by norm_num)) rest
  refine parse_done ?_ (List.cons_ne_nil _ _)
  simp only [Schema.turn, htag, hcase, true_or, if_true]

theorem parse_encode (h : ∀ f ∈ fs, Field.Valid wire S f) (m : M) (rest : List UInt8) :
    S.parse wire m (fs.flatMap Field.encode ++ rest) = S.parse wire (fs.foldl (Field.apply S) m) rest := by
  induction fs generalizing m with
  | nil => rfl
  | cons f fs ih =>
    rw [List.flatMap_cons, List.append_assoc, parse_next (turn_encode (h f List.mem_cons_self) m _),
      ih fun f hf => h f (List.mem_cons_of_mem _ hf)]
    rfl

/-- Bytes that are accepted are the fields of a message, whatever it was before and whatever
stands behind them. -/
theorem fields_of_parse (h : S.parse wire m bs = (m', .limit)) : ∃ fs : List Field,
    (∀ f ∈ fs, f.Valid wire S) ∧
    ∀ m more, S.parse wire m (bs ++ more) = S.parse wire (fs.foldl (Field.apply S) m) more := by
  -- on the length of the bytes, as every turn shortens them
  induction hn : bs.length using Nat.strong_induction_on generalizing m bs with
  | _ n ih =>
    subst hn
    by_cases hnil : bs = []
    · subst hnil
      exact ⟨[], fun f hf => (by cases hf), fun _ _ => rfl⟩
    cases ht : S.turn wire m bs with
    | next m₁ rest =>
      obtain ⟨f, hf, hlen, -, happ⟩ := field_of_turn ht
      rw [parse_next ht] at h
      obtain ⟨fs, hfs, hparse⟩ := ih _ hlen h rfl
      refine ⟨f :: fs, List.forall_mem_cons.mpr ⟨hf, hfs⟩, ?_⟩
      intro m more
      rw [parse_next (happ m more), hparse]
      rfl
    | done m₁ tag =>
      rw [Schema.parse, if_neg hnil] at h
      split at h <;> rename_i heq <;> rw [ht] at heq <;> cases heq
      cases h
    | failure m₁ =>
      rw [Schema.parse, if_neg hnil] at h
      split at h <;> rename_i heq <;> rw [ht] at heq <;> cases heq
      cases h

end Parsing

/-- A run of fields that a message does not know. -/
def Reader.Unknown (wire : Reader) (S : Schema M) (bs : List UInt8) : Prop :=
  ∃ kept : List (List UInt8), (∀ k ∈ kept, wire.Kept S k) ∧ bs = kept.flatten

theorem Reader.text_ascii (wire : Reader) {s : List UInt8} (hlen : s.length ≤ 1073741824)
    (h : ∀ c ∈ s, c < 128) : wire.Text s :=
  ⟨hlen.trans wire.maxSize_bounds.1, wire.verifyUtf8_ascii s h⟩

theorem Reader.Unknown.concat {wire : Reader} {S : Schema M} {bs k : List UInt8}
    (h : wire.Unknown S bs) (hk : wire.Kept S k) : wire.Unknown S (bs ++ k) := by
  obtain ⟨kept, hkept, rfl⟩ := h
  exact ⟨kept ++ [k], List.forall_mem_append.mpr ⟨hkept, by simpa using hk⟩, by simp⟩

theorem flatMap_unknown (kept : List (List UInt8)) :
    (kept.map Field.unknown).flatMap Field.encode = kept.flatten := by
  rw [List.flatMap_map]
  exact List.flatMap_id

/-- A message with what it is written as: the fields that it has, from the empty message. -/
structure Message (M : Type*) extends Schema M where
  new : M
  mergeFrom : M → M → M
  serialize : M → List UInt8
  Valid : Reader → M → Prop
  mergeFrom_new : ∀ m, mergeFrom m new = m
  new_mergeFrom : ∀ m, mergeFrom new m = m
  mergeFrom_assoc : ∀ a b c, mergeFrom (mergeFrom a b) c = mergeFrom a (mergeFrom b c)
  apply_eq : ∀ m f, Field.apply toSchema m f = mergeFrom m (Field.apply toSchema new f)
  valid_new : ∀ wire, Valid wire new
  valid_apply : ∀ {wire m f}, Valid wire m → Field.Valid wire toSchema f →
    Valid wire (Field.apply toSchema m f)
  fields_of_valid : ∀ {wire m}, Valid wire m → ∃ fs : List Field,
    (∀ f ∈ fs, f.Valid wire toSchema) ∧ serialize m = fs.flatMap Field.encode ∧
    fs.foldl (Field.apply toSchema) new = m

namespace Message

variable (P : Message M) {wire : Reader} {m a b : M} {bs xs ys : List UInt8} {fs : List Field}

theorem foldl_apply (m : M) (fs : List Field) :
    fs.foldl (Field.apply P.toSchema) m = P.mergeFrom m (fs.foldl (Field.apply P.toSchema) P.new) := by
  -- from the end, where the last field is merged into what the others have made
  induction fs using List.reverseRecOn with
  | nil => exact (P.mergeFrom_new m).symm
  | append_singleton fs f ih =>
    rw [List.foldl_append, List.foldl_append, ih]
    simp only [List.foldl_cons, List.foldl_nil]
    rw [P.apply_eq, P.mergeFrom_assoc, ← P.apply_eq]

theorem valid_foldl (hm : P.Valid wire m) (h : ∀ f ∈ fs, f.Valid wire P.toSchema) :
    P.Valid wire (fs.foldl (Field.apply P.toSchema) m) := by
  induction fs generalizing m with
  | nil => exact hm
  | cons f fs ih =>
    rw [List.forall_mem_cons] at h
    exact ih (P.valid_apply hm h.1) h.2

/-- What is written is read back, in front of anything. -/
theorem parse_serialize (h : P.Valid wire b) (m : M) (rest : List UInt8) :
    P.parse wire m (P.serialize b ++ rest) = P.parse wire (P.mergeFrom m b) rest := by
  obtain ⟨fs, hfs, hser, hfold⟩ := P.fields_of_valid h
  rw [hser, parse_encode hfs, foldl_apply, hfold]

theorem parse_serialize_new (h : P.Valid wire m) :
    P.parse wire P.new (P.serialize m) = (m, .limit) := by
  have := P.parse_serialize h P.new []
  rwa [List.append_nil, P.new_mergeFrom, parse_nil] at this

/-- Whatever is accepted is a message that can be written. -/
theorem valid_of_parse (h : P.parse wire P.new bs = (m, .limit)) : P.Valid wire m := by
  obtain ⟨fs, hfs, hparse⟩ := fields_of_parse h
  have hm := hparse P.new []
  rw [List.append_nil, h, parse_nil] at hm
  cases hm
  exact P.valid_foldl (P.valid_new wire) hfs

/-- To read one message behind another is to merge it. -/
theorem parse_append (ha : P.parse wire P.new xs = (a, .limit))
    (hb : P.parse wire P.new ys = (b, .limit)) :
    P.parse wire P.new (xs ++ ys) = (P.mergeFrom a b, .limit) := by
  obtain ⟨fs, -, hfs⟩ := fields_of_parse ha
  obtain ⟨gs, -, hgs⟩ := fields_of_parse hb
  have hx := hfs P.new []
  have hy := hgs P.new []
  rw [List.append_nil, ha, parse_nil] at hx
  rw [List.append_nil, hb, parse_nil] at hy
  cases hx
  cases hy
  have := hgs (fs.foldl (Field.apply P.toSchema) P.new) []
  rw [List.append_nil, parse_nil] at this
  rw [hfs, this, ← foldl_apply]

end Message

section Plain

/-- A string behind its length. -/
def sized (bs : List UInt8) : Option (List UInt8 × List UInt8) :=
  (Varint.decode 5 bs).bind fun p =>
    if p.1 < 2147483632 ∧ p.1 ≤ p.2.length then some (p.2.take p.1, p.2.drop p.1) else none

theorem sized_eq_some {bs s rest : List UInt8} (h : sized bs = some (s, rest)) :
    s.length < 2147483632 ∧ Varint.decode 5 bs = some (s.length, s ++ rest) := by
  obtain ⟨p, hp, hs⟩ := Option.bind_eq_some_iff.mp h
  split_ifs at hs with hcond
  cases hs
  have hlen : (p.2.take p.1).length = p.1 := by rw [List.length_take, Nat.min_eq_left hcond.2]
  rw [hlen, List.take_append_drop]
  exact ⟨hcond.1, hp⟩

theorem sized_of_decode {bs s rest : List UInt8} (hs : s.length < 2147483632)
    (h : Varint.decode 5 bs = some (s.length, s ++ rest)) : sized bs = some (s, rest) := by
  rw [sized, h, Option.bind_some]
  dsimp only
  rw [if_pos ⟨hs, by rw [List.length_append]; omega⟩, List.take_left, List.drop_left]

theorem sized_append {bs s rest : List UInt8} (h : sized bs = some (s, rest)) (more : List UInt8) :
    sized (bs ++ more) = some (s, rest ++ more) := by
  obtain ⟨hs, hdec⟩ := sized_eq_some h
  apply sized_of_decode hs
  rw [Varint.decode_append hdec, List.append_assoc]

theorem sized_encode {s : List UInt8} (hs : s.length < 2147483632) (rest : List UInt8) :
    sized (Varint.encode 5 s.length ++ (s ++ rest)) = some (s, rest) := by
  have hlt : s.length < 128 ^ 5 := hs.trans (by norm_num)
  exact sized_of_decode hs (Varint.decode_encode hlt)

theorem sized_length {bs s rest : List UInt8} (h : sized bs = some (s, rest)) :
    rest.length ≤ bs.length := by
  have hlen := Varint.decode_length (sized_eq_some h).2
  rw [List.length_append] at hlen
  omega

/-- A number below `bound` in at most `k` bytes. -/
def below (k bound : ℕ) (bs : List UInt8) : Option (ℕ × List UInt8) :=
  (Varint.decode k bs).filter fun p => p.1 < bound

theorem below_eq_some_iff {k bound n : ℕ} {bs rest : List UInt8} :
    below k bound bs = some (n, rest) ↔ Varint.decode k bs = some (n, rest) ∧ n < bound := by
  rw [below, Option.filter_eq_some_iff, decide_eq_true_iff]

theorem below_encode {k bound n : ℕ} (hn : n < bound) (hk : bound ≤ 128 ^ (k + 1))
    (rest : List UInt8) : below (k + 1) bound (Varint.encode (k + 1) n ++ rest) = some (n, rest) :=
  below_eq_some_iff.mpr ⟨Varint.decode_encode (hn.trans_le hk), hn⟩

theorem below_append {k bound n : ℕ} {bs rest : List UInt8} (h : below k bound bs = some (n, rest))
    (more : List UInt8) : below k bound (bs ++ more) = some (n, rest ++ more) := by
  obtain ⟨hdec, hn⟩ := below_eq_some_iff.mp h
  exact below_eq_some_iff.mpr ⟨Varint.decode_append hdec more, hn⟩

def fixed (n : ℕ) (bs : List UInt8) : Option (List UInt8 × List UInt8) :=
  if n ≤ bs.length then some (bs.take n, bs.drop n) else none

/-- What stands behind a tag of the wire type `type`, as it is written. -/
def payload (type : ℕ) (bs : List UInt8) : Option (List UInt8 × List UInt8) :=
  match type with
  | 0 => (below 10 18446744073709551616 bs).map fun p => (Varint.encode 10 p.1, p.2)
  | 1 => fixed 8 bs
  | 2 => (sized bs).map fun p => (Varint.encode 5 p.1.length ++ p.1, p.2)
  | 5 => fixed 4 bs
  | _ => none

theorem fixed_eq_some_iff {n : ℕ} {bs kept rest : List UInt8} :
    fixed n bs = some (kept, rest) ↔ kept.length = n ∧ bs = kept ++ rest := by
  unfold fixed
  constructor
  · intro h
    split_ifs at h with hle
    cases h
    exact ⟨by rw [List.length_take, Nat.min_eq_left hle], (List.take_append_drop n bs).symm⟩
  · rintro ⟨rfl, rfl⟩
    rw [if_pos (by rw [List.length_append]; omega), List.take_left, List.drop_left]

theorem fixed_kept {n : ℕ} {bs kept rest : List UInt8} (h : fixed n bs = some (kept, rest)) :
    rest.length ≤ bs.length ∧ (∀ more, fixed n (bs ++ more) = some (kept, rest ++ more)) ∧
      fixed n kept = some (kept, []) := by
  obtain ⟨hlen, rfl⟩ := fixed_eq_some_iff.mp h
  refine ⟨by rw [List.length_append]; omega, ?_, ?_⟩
  · intro more
    exact fixed_eq_some_iff.mpr ⟨hlen, List.append_assoc _ _ _⟩
  · exact fixed_eq_some_iff.mpr ⟨hlen, (List.append_nil kept).symm⟩

theorem payload_kept {type : ℕ} {bs kept rest : List UInt8}
    (h : payload type bs = some (kept, rest)) :
    rest.length ≤ bs.length ∧ (∀ more, payload type (bs ++ more) = some (kept, rest ++ more)) ∧
      payload type kept = some (kept, []) := by
  unfold payload at h ⊢
  split at h
  · obtain ⟨p, hp, hkept⟩ := Option.map_eq_some_iff.mp h
    cases hkept
    obtain ⟨hdec, hlt⟩ := below_eq_some_iff.mp hp
    have hback := below_encode hlt (k := 9) (by norm_num) []
    rw [List.append_nil] at hback
    exact ⟨(Varint.decode_length hdec).le, fun more => by rw [below_append hp, Option.map_some],
      by rw [hback, Option.map_some]⟩
  · exact fixed_kept h
  · obtain ⟨p, hp, hkept⟩ := Option.map_eq_some_iff.mp h
    cases hkept
    have hback := sized_encode (sized_eq_some hp).1 []
    rw [List.append_nil] at hback
    exact ⟨sized_length hp, fun more => by rw [sized_append hp, Option.map_some],
      by rw [hback, Option.map_some]⟩
  · exact fixed_kept h
  · cases h

/-- A reader of all wire types but groups, for strings of ASCII characters. -/
def plain : Reader where
  readTag := below 5 4294967296
  readVarint64 := below 10 18446744073709551616
  readString old bs := match sized bs with
    | none => (old, none)
    | some (str, rest) => (str, some rest)
  verifyUtf8 str := str.all fun c => c < 128
  unknownField tag bs := match payload (tag % 8) bs with
    | none => ([], none)
    | some (kept, rest) => (Varint.encode 5 tag ++ kept, some rest)
  maxSize := 2147483631
  maxSize_bounds := by norm_num
  readTag_encode tag h := by
    have := below_encode h (k := 4) (by norm_num) []
    rwa [List.append_nil] at this
  readTag_append h more := below_append h more
  readTag_bound h := ⟨(below_eq_some_iff.mp h).2, Varint.decode_length (below_eq_some_iff.mp h).1⟩
  readVarint64_encode n h := by
    have := below_encode h (k := 9) (by norm_num) []
    rwa [List.append_nil] at this
  readVarint64_append h more := below_append h more
  readVarint64_bound h :=
    ⟨(below_eq_some_iff.mp h).2, (Varint.decode_length (below_eq_some_iff.mp h).1).le⟩
  verifyUtf8_ascii s h := by simpa using h
  readString_encode s hs old := by
    have := sized_encode (by omega : s.length < 2147483632) []
    rw [List.append_nil] at this
    rw [this]
  readString_append {old bs s rest} h old' more := by
    cases hs : sized bs with
    | none =>
      rw [hs] at h
      cases h
    | some p =>
      rw [hs] at h
      cases h
      rw [sized_append hs]
  readString_bound {old bs s rest} h := by
    cases hs : sized bs with
    | none =>
      rw [hs] at h
      cases h
    | some p =>
      rw [hs] at h
      cases h
      exact ⟨Nat.le_of_lt_succ (sized_eq_some hs).1, sized_length hs⟩
  unknownField_kept {bs tag bs' kept rest} htag h := by
    cases hp : payload (tag % 8) bs' with
    | none =>
      rw [hp] at h
      cases h
    | some p =>
      rw [hp] at h
      cases h
      have hback := below_encode (below_eq_some_iff.mp htag).2 (k := 4) (by norm_num) p.1
      exact ⟨p.1, hback, by rw [(payload_kept hp).2.2]⟩
  unknownField_append {tag bs kept rest} h more := by
    cases hp : payload (tag % 8) bs with
    | none =>
      rw [hp] at h
      cases h
    | some p =>
      rw [hp] at h
      cases h
      rw [(payload_kept hp).2.1]
  unknownField_bound {tag bs kept rest} h := by
    cases hp : payload (tag % 8) bs with
    | none =>
      rw [hp] at h
      cases h
    | some p =>
      rw [hp] at h
      cases h
      exact (payload_kept hp).1

end Plain

end WireFormat
