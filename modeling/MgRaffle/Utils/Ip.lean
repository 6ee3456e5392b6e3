import Mathlib.Tactic
import Mathlib.Data.List.TakeWhile

namespace MgRaffle.Utils

/-- `isspace` of the C locale. -/
def isSpace (c : Char) : Bool := c == ' ' || (9 ≤ c.toNat && c.toNat ≤ 13)

def isSign (c : Char) : Bool := c == '+' || c == '-'

/-- The characters that one `%d` reads. -/
@[ext]
structure Reading where
  blanks : List Char
  sign : List Char
  digits : List Char
  blanks_spec : ∀ c ∈ blanks, isSpace c
  sign_spec : sign.length ≤ 1 ∧ ∀ c ∈ sign, isSign c
  digits_spec : digits ≠ [] ∧ ∀ c ∈ digits, c.isDigit
  deriving DecidableEq

/-- The value of a run of decimal digits. -/
def decimal (digits : List Char) : ℕ := digits.foldl (fun v c => 10 * v + (c.toNat - 48)) 0

/-- What 64 bits make of a value that they cannot hold. -/
def clampLong (v : ℤ) : ℤ := max (-9223372036854775808) (min 9223372036854775807 v)

namespace Reading

def text (r : Reading) : List Char := r.blanks ++ r.sign ++ r.digits

/-- The value in the `int`: the 64-bit one, truncated. -/
def value (r : Reading) : ℤ :=
  (clampLong (if r.sign = ['-'] then -(decimal r.digits) else decimal r.digits)).bmod 4294967296

end Reading

/-- One `%d`: white space, at most one sign, and the longest run of digits. Returns what it has read
and what is left. -/
def scanInt (s : List Char) : Option (Reading × List Char) :=
  let t := s.dropWhile isSpace
  let sign := (t.take 1).filter isSign
  let u := t.drop sign.length
  if h : u.takeWhile Char.isDigit = [] then none
  else
    some (⟨s.takeWhile isSpace, sign, u.takeWhile Char.isDigit,
      fun _ hc => List.mem_takeWhile_imp hc,
      ⟨(List.length_filter_le _ _).trans (List.length_take_le 1 t),
        fun _ hc => (List.mem_filter.mp hc).2⟩,
      ⟨h, fun _ hc => List.mem_takeWhile_imp hc⟩⟩, u.dropWhile Char.isDigit)

/-- `sscanf(s, "%d.%d. …")` with `n` conversions: those that it makes. It returns their number. -/
def sscanf : ℕ → List Char → List Reading
  | 0, _ => []
  | n + 1, s =>
    match scanInt s with
    | none => []
    | some (r, '.' :: rest) => r :: sscanf n rest
    | some (r, _) => [r]

/-- `none` is the null pointer. -/
def ipvalid : Option (List Char) → Bool
  | none => false
  | some ip =>
    let a := (sscanf 4 ip).map Reading.value
    if a.length ≠ 4 then false else a.all fun x => !(x < 0 || x > 255)

section Scanning

/-- Nothing that a run of digits would go on with. -/
def Stops (rest : List Char) : Prop := ∀ c ∈ rest.head?, c.isDigit = false

theorem stops_nil : Stops [] := by
  intro c hc
  cases hc

theorem isDigit_bounds {c : Char} (h : c.isDigit) : 48 ≤ c.toNat ∧ c.toNat ≤ 57 := by
  rw [Char.isDigit, Bool.and_eq_true, decide_eq_true_eq, decide_eq_true_eq] at h
  exact h

theorem isSpace_of_isDigit {c : Char} (h : c.isDigit) : isSpace c = false := by
  have hc := isDigit_bounds h
  have hne : c ≠ ' ' := by
    rintro rfl
    cases h
  simp only [isSpace, Bool.or_eq_false_iff, beq_eq_false_iff_ne, Bool.and_eq_false_iff,
    decide_eq_false_iff_not]
  exact ⟨hne, .inr (by omega)⟩

theorem isSign_of_isDigit {c : Char} (h : c.isDigit) : isSign c = false := by
  rw [isSign, Bool.or_eq_false_iff, beq_eq_false_iff_ne, beq_eq_false_iff_ne]
  constructor
  · rintro rfl
    cases h
  · rintro rfl
    cases h

theorem isSpace_of_isSign {c : Char} (h : isSign c) : isSpace c = false := by
  rw [isSign, Bool.or_eq_true, beq_iff_eq, beq_iff_eq] at h
  rcases h with rfl | rfl <;> rfl

/-- A run that ends where the next character does not belong to it. -/
theorem span_append {p : Char → Bool} {l rest : List Char} (hl : ∀ c ∈ l, p c)
    (hrest : ∀ c ∈ rest.head?, p c = false) :
    (l ++ rest).takeWhile p = l ∧ (l ++ rest).dropWhile p = rest := by
  rw [List.takeWhile_append_of_pos hl, List.dropWhile_append_of_pos hl]
  cases rest with
  | nil => exact ⟨List.append_nil l, rfl⟩
  | cons c rest =>
    have hc := hrest c rfl
    rw [List.takeWhile_cons_of_neg (by rw [hc]; decide),
      List.dropWhile_cons_of_neg (by rw [hc]; decide)]
    exact ⟨List.append_nil l, rfl⟩

/-- `%d` reads the text of a reading, whatever follows it but a digit. -/
theorem scanInt_text (r : Reading) {rest : List Char} (hrest : Stops rest) :
    scanInt (r.text ++ rest) = some (r, rest) := by
  obtain ⟨blanks, sign, digits, hblanks, ⟨hone, hsign⟩, hne, hdigits⟩ := r
  obtain ⟨d, ds, rfl⟩ := List.exists_cons_of_ne_nil hne
  have hd := hdigits d List.mem_cons_self
  have hspan := span_append hdigits hrest
  have htext : (blanks ++ sign ++ d :: ds) ++ rest = blanks ++ (sign ++ (d :: ds ++ rest)) := by
    simp only [List.append_assoc]
  have hblank : ∀ c ∈ (sign ++ (d :: ds ++ rest)).head?, isSpace c = false := by
    cases sign with
    | nil =>
      rintro c ⟨rfl⟩
      exact isSpace_of_isDigit hd
    | cons b bs =>
      rintro c ⟨rfl⟩
      exact isSpace_of_isSign (hsign b List.mem_cons_self)
  have hspace := span_append hblanks hblank
  have hfilter : ((sign ++ (d :: ds ++ rest)).take 1).filter isSign = sign := by
    match sign, hone, hsign with
    | [], _, _ =>
      have hnot := isSign_of_isDigit hd
      exact List.filter_cons_of_neg (by rw [hnot]; decide)
    | [b], _, hsign => exact List.filter_cons_of_pos (hsign b List.mem_cons_self)
  have hdrop : (sign ++ (d :: ds ++ rest)).drop sign.length = d :: ds ++ rest := List.drop_left
  rw [scanInt, Reading.text, htext]
  simp only [hspace.2, hfilter, hdrop, hspan.2]
  split
  · rename_i hnil
    rw [hspan.1] at hnil
    cases hnil
  · exact congrArg some (Prod.ext (Reading.ext hspace.1 rfl hspan.1) rfl)

theorem sign_append_drop (t : List Char) :
    (t.take 1).filter isSign ++ t.drop ((t.take 1).filter isSign).length = t := by
  cases t with
  | nil => rfl
  | cons c t =>
    rw [List.take_succ_cons, List.take_zero, List.filter_singleton]
    cases isSign c <;> rfl

/-- What `%d` has read and what is left make up the text. -/
theorem eq_of_scanInt {s rest : List Char} {r : Reading} (h : scanInt s = some (r, rest)) :
    s = r.text ++ rest ∧ Stops rest := by
  rw [scanInt] at h
  split at h
  · cases h
  · obtain ⟨rfl, rfl⟩ := Prod.mk.inj (Option.some.inj h)
    constructor
    · simp only [Reading.text, List.append_assoc, List.takeWhile_append_dropWhile,
        sign_append_drop]
    · intro c hc
      have hhead := List.head?_dropWhile_not Char.isDigit
        ((s.dropWhile isSpace).drop (((s.dropWhile isSpace).take 1).filter isSign).length)
      rw [Option.mem_def.mp hc] at hhead
      exact hhead

/-- The readings with their dots. -/
def dotted (groups : List (List Char)) : List Char := ['.'].intercalate groups

theorem dotted_cons_cons (g g' : List Char) (groups : List (List Char)) :
    dotted (g :: g' :: groups) = g ++ '.' :: dotted (g' :: groups) := rfl

theorem stops_dot (rest : List Char) : Stops ('.' :: rest) := by
  rintro c ⟨rfl⟩
  rfl

section Conversions

variable {n : ℕ} {s rest : List Char} {r : Reading}

theorem sscanf_none (h : scanInt s = none) : sscanf (n + 1) s = [] := by rw [sscanf, h]

theorem sscanf_dot (h : scanInt s = some (r, '.' :: rest)) :
    sscanf (n + 1) s = r :: sscanf n rest := by
  rw [sscanf, h]
  rfl

theorem sscanf_last (h : scanInt s = some (r, rest)) (hrest : rest.head? ≠ some '.') :
    sscanf (n + 1) s = [r] := by
  rw [sscanf, h]
  split
  · rename_i heq
    cases heq
  · rename_i heq
    cases heq
    exact absurd rfl hrest
  · rename_i heq
    cases heq
    rfl

theorem sscanf_one (h : scanInt s = some (r, rest)) : sscanf 1 s = [r] := by
  by_cases hrest : rest.head? = some '.'
  · obtain ⟨t, rfl⟩ := List.head?_eq_some_iff.mp hrest
    rw [sscanf_dot h, sscanf]
  · exact sscanf_last h hrest

/-- The conversions give back the readings that a text begins with. -/
theorem sscanf_dotted {rs : List Reading} (hne : rs ≠ []) (hrest : Stops rest) :
    sscanf rs.length (dotted (rs.map Reading.text) ++ rest) = rs := by
  induction rs with
  | nil => exact absurd rfl hne
  | cons r rs ih =>
    cases rs with
    | nil =>
      have htext : dotted ([r].map Reading.text) ++ rest = r.text ++ rest := by
        rw [dotted, List.map_singleton, List.intercalate_singleton]
      rw [htext]
      exact sscanf_one (scanInt_text r hrest)
    | cons r' rs =>
      have htext : dotted ((r :: r' :: rs).map Reading.text) ++ rest =
          r.text ++ '.' :: (dotted ((r' :: rs).map Reading.text) ++ rest) := by
        rw [List.map_cons, List.map_cons, dotted_cons_cons, List.append_assoc]
        rfl
      rw [htext, List.length_cons, sscanf_dot (scanInt_text r (stops_dot _))]
      exact congrArg (r :: ·) (ih (List.cons_ne_nil r' rs))

/-- Where all `n` conversions are made, the text begins with `n` readings. -/
theorem eq_of_sscanf (h : (sscanf (n + 1) s).length = n + 1) :
    ∃ rest, Stops rest ∧ s = dotted ((sscanf (n + 1) s).map Reading.text) ++ rest := by
  induction n generalizing s with
  | zero =>
    cases hs : scanInt s with
    | none =>
      rw [sscanf_none hs] at h
      cases h
    | some x =>
      obtain ⟨r, rest⟩ := x
      obtain ⟨htext, hrest⟩ := eq_of_scanInt hs
      refine ⟨rest, hrest, ?_⟩
      rw [sscanf_one hs, dotted, List.map_singleton, List.intercalate_singleton]
      exact htext
  | succ n ih =>
    cases hs : scanInt s with
    | none =>
      rw [sscanf_none hs] at h
      cases h
    | some x =>
      obtain ⟨r, t⟩ := x
      obtain ⟨htext, -⟩ := eq_of_scanInt hs
      -- without a dot the conversions end here, with one
      by_cases hdot : t.head? = some '.'
      · obtain ⟨u, rfl⟩ := List.head?_eq_some_iff.mp hdot
        rw [sscanf_dot hs] at h ⊢
        obtain ⟨rest, hrest, hu⟩ := ih (Nat.succ_inj.mp h)
        refine ⟨rest, hrest, ?_⟩
        obtain ⟨r', rs, hrs⟩ : ∃ r' rs, sscanf (n + 1) u = r' :: rs := by
          cases hl : sscanf (n + 1) u with
          | nil =>
            rw [hl] at h
            cases h
          | cons r' rs => exact ⟨r', rs, rfl⟩
        rw [hrs] at hu ⊢
        rw [List.map_cons, List.map_cons, dotted_cons_cons, List.append_assoc, htext]
        exact congrArg (r.text ++ '.' :: ·) hu
      · rw [sscanf_last hs hdot] at h
        cases h

end Conversions

end Scanning

section Quads

/-- One to any number of digits with a value of at most 255. -/
def Octet (g : List Char) : Prop := g ≠ [] ∧ (∀ c ∈ g, c.isDigit) ∧ decimal g ≤ 255

/-- Four groups of digits with single dots between them, and nothing else. -/
def IsQuad (s : List Char) : Prop :=
  ∃ gs : List (List Char), gs.length = 4 ∧ (∀ g ∈ gs, Octet g) ∧ s = dotted gs

/-- No more than the digits of an octet. -/
def Reading.Plain (r : Reading) : Prop := r.blanks = [] ∧ r.sign = [] ∧ decimal r.digits ≤ 255

theorem ipvalid_iff {s : List Char} :
    ipvalid (some s) = true ↔ ∃ (rs : List Reading) (rest : List Char), rs.length = 4 ∧
      Stops rest ∧ s = dotted (rs.map Reading.text) ++ rest ∧
      ∀ r ∈ rs, 0 ≤ r.value ∧ r.value ≤ 255 := by
  have hvalid : ipvalid (some s) = true ↔
      (sscanf 4 s).length = 4 ∧ ∀ r ∈ sscanf 4 s, 0 ≤ r.value ∧ r.value ≤ 255 := by
    simp [ipvalid]
  rw [hvalid]
  constructor
  · rintro ⟨hlen, hrange⟩
    obtain ⟨rest, hrest, hs⟩ := eq_of_sscanf hlen
    exact ⟨_, rest, hlen, hrest, hs, hrange⟩
  · rintro ⟨rs, rest, hlen, hrest, rfl, hrange⟩
    have hscan := sscanf_dotted (List.ne_nil_of_length_pos (by rw [hlen]; decide)) hrest
    rw [hlen] at hscan
    rw [hscan]
    exact ⟨hlen, hrange⟩

theorem value_of_plain {r : Reading} (h : r.Plain) : r.value = decimal r.digits := by
  obtain ⟨-, hsign, hle⟩ := h
  have hne : ¬ r.sign = ['-'] := by
    rw [hsign]
    exact (List.cons_ne_nil _ _).symm
  have hclamp : clampLong (decimal r.digits) = decimal r.digits := by
    unfold clampLong
    omega
  rw [Reading.value, if_neg hne, hclamp]
  exact Int.bmod_eq_of_le (by omega) (by omega)

theorem octet_of_plain {r : Reading} (h : r.Plain) : Octet r.text := by
  obtain ⟨hblanks, hsign, hle⟩ := h
  have htext : r.text = r.digits := by
    rw [Reading.text, hblanks, hsign, List.nil_append, List.nil_append]
  rw [htext]
  exact ⟨r.digits_spec.1, r.digits_spec.2, hle⟩

theorem exists_plain {gs : List (List Char)} (h : ∀ g ∈ gs, Octet g) :
    ∃ rs : List Reading, rs.map Reading.text = gs ∧ ∀ r ∈ rs, r.Plain := by
  induction gs with
  | nil => exact ⟨[], rfl, List.forall_mem_nil _⟩
  | cons g gs ih =>
    obtain ⟨hg, hgs⟩ := List.forall_mem_cons.mp h
    obtain ⟨rs, hrs, hplain⟩ := ih hgs
    let r : Reading :=
      ⟨[], [], g, List.forall_mem_nil _, ⟨Nat.zero_le 1, List.forall_mem_nil _⟩, hg.1, hg.2.1⟩
    refine ⟨r :: rs, ?_, List.forall_mem_cons.mpr ⟨⟨rfl, rfl, hg.2.2⟩, hplain⟩⟩
    rw [List.map_cons, hrs]
    rfl

/-- A dotted quad, as the readings that it is made of. -/
theorem isQuad_iff {s : List Char} :
    IsQuad s ↔ ∃ rs : List Reading, rs.length = 4 ∧ (∀ r ∈ rs, r.Plain) ∧
      s = dotted (rs.map Reading.text) := by
  constructor
  · rintro ⟨gs, hlen, hgs, rfl⟩
    obtain ⟨rs, rfl, hplain⟩ := exists_plain hgs
    rw [List.length_map] at hlen
    exact ⟨rs, hlen, hplain, rfl⟩
  · rintro ⟨rs, hlen, hplain, rfl⟩
    refine ⟨rs.map Reading.text, by rw [List.length_map, hlen], ?_, rfl⟩
    exact List.forall_mem_map.mpr fun r hr => octet_of_plain (hplain r hr)

theorem ipvalid_of_isQuad {s : List Char} (h : IsQuad s) : ipvalid (some s) = true := by
  obtain ⟨rs, hlen, hplain, rfl⟩ := isQuad_iff.mp h
  refine ipvalid_iff.mpr ⟨rs, [], hlen, stops_nil, (List.append_nil _).symm, ?_⟩
  intro r hr
  rw [value_of_plain (hplain r hr)]
  have hle := (hplain r hr).2.2
  omega

/-- `ipvalid` takes a text for a dotted quad that is none exactly where the four numbers that it
begins with are taken for octets, and there is a blank, a sign, a value above 255 or more text. -/
theorem ipvalid_iff_isQuad_iff (s : List Char) :
    (ipvalid (some s) = true ↔ IsQuad s) ↔
      ∀ (rs : List Reading) (rest : List Char), rs.length = 4 → Stops rest →
        s = dotted (rs.map Reading.text) ++ rest → (∀ r ∈ rs, 0 ≤ r.value ∧ r.value ≤ 255) →
        rest = [] ∧ ∀ r ∈ rs, r.Plain := by
  constructor
  · intro h rs rest hlen hrest hs hrange
    obtain ⟨qs, hqlen, hplain, hq⟩ :=
      isQuad_iff.mp (h.mp (ipvalid_iff.mpr ⟨rs, rest, hlen, hrest, hs, hrange⟩))
    -- a text has one reading only
    have hrs := sscanf_dotted (List.ne_nil_of_length_pos (by rw [hlen]; decide)) hrest
    have hqs := sscanf_dotted (List.ne_nil_of_length_pos (by rw [hqlen]; decide)) stops_nil
    rw [List.append_nil, ← hq, hqlen] at hqs
    rw [← hs, hlen, hqs] at hrs
    subst hrs
    rw [hq] at hs
    exact ⟨List.self_eq_append_right.mp hs, hplain⟩
  · intro h
    refine ⟨fun hvalid => ?_, ipvalid_of_isQuad⟩
    obtain ⟨rs, rest, hlen, hrest, hs, hrange⟩ := ipvalid_iff.mp hvalid
    obtain ⟨rfl, hplain⟩ := h rs rest hlen hrest hs hrange
    rw [List.append_nil] at hs
    exact isQuad_iff.mpr ⟨rs, hlen, hplain, hs⟩

theorem mem_dotted {gs : List (List Char)} {c : Char} (h : c ∈ dotted gs) :
    c = '.' ∨ ∃ g ∈ gs, c ∈ g := by
  induction gs with
  | nil => cases h
  | cons g gs ih =>
    cases gs with
    | nil =>
      rw [dotted, List.intercalate_singleton] at h
      exact .inr ⟨g, List.mem_singleton_self g, h⟩
    | cons g' gs =>
      rw [dotted_cons_cons, List.mem_append, List.mem_cons] at h
      rcases h with h | h | h
      · exact .inr ⟨g, List.mem_cons_self, h⟩
      · exact .inl h
      · rcases ih h with h | ⟨k, hk, hc⟩
        · exact .inl h
        · exact .inr ⟨k, List.mem_cons_of_mem g hk, hc⟩

theorem ipvalid_trailing :
    ¬ (ipvalid (some "1.2.3.4x".toList) = true ↔ IsQuad "1.2.3.4x".toList) := by
  intro h
  have hvalid : ipvalid (some "1.2.3.4x".toList) = true := by decide
  obtain ⟨gs, -, hgs, hs⟩ := h.mp hvalid
  have hx : 'x' ∈ dotted gs := by
    rw [← hs]
    decide
  rcases mem_dotted hx with h | ⟨g, hg, hc⟩
  · cases h
  · cases (hgs g hg).2.1 'x' hc

end Quads

end MgRaffle.Utils
