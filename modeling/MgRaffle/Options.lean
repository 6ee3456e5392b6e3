import Mathlib.Tactic

namespace MgRaffle.Options

def UCHAR_MAX : ℤ := 255

def noArgument : ℤ := 0

def requiredArgument : ℤ := 1

def optionalArgument : ℤ := 2

/-- `struct option`, where a null pointer is `none`, and of `flag` only whether there is one. -/
structure LongOption where
  name : Option String
  hasArg : ℤ
  flag : Bool
  val : ℤ
  deriving Repr, DecidableEq

def colon : UInt8 := 58

def semicolon : UInt8 := 59

def plus : UInt8 := 43

def minus : UInt8 := 45

/-- The size of `short_options`. -/
def capacity : ℕ := 255 * 3 + 1

/-- `*p++ = c`, with what is in front of `p`. `none` where it is outside `short_options`. -/
def put (written : List UInt8) (c : UInt8) : Option (List UInt8) :=
  if written.length < capacity then some (written ++ [c]) else none

namespace LongOption

/-- The option has a short form. -/
def Short (o : LongOption) : Prop := o.flag = false ∧ o.val > 0 ∧ o.val ≤ UCHAR_MAX

instance (o : LongOption) : Decidable o.Short := by unfold Short; infer_instance

/-- `o->val` as a `char`. -/
def char (o : LongOption) : UInt8 := UInt8.ofNat o.val.toNat

/-- The body of the loop. -/
def add (o : LongOption) (written : List UInt8) : Option (List UInt8) :=
  if o.Short then do
    let written ← put written o.char
    if o.hasArg = requiredArgument then put written colon
    else if o.hasArg = optionalArgument then do
      let written ← put written colon
      put written colon
    else some written
  else some written

end LongOption

/-- The loop over the table, which ends with an option without a name. -/
def addAll : List LongOption → List UInt8 → Option (List UInt8)
  | [], _ => none
  | o :: options, written =>
    if o.name = none then some written else (o.add written).bind (addAll options)

/-- `strdup` copies what is in front of the first zero. -/
def cmdLongOptionsToShortOptions (options : List LongOption) : Option (List UInt8) := do
  let written ← addAll options []
  let written ← put written 0
  some (written.takeWhile (· ≠ 0))

section Getopt

/-- A `+` or `-` in front is about the order of the arguments. -/
def optstring (short : List UInt8) : List UInt8 :=
  if short.head? = some plus ∨ short.head? = some minus then short.tail else short

/-- The colons behind the first place of `c` say whether it has an argument. -/
def modeAt (short : List UInt8) (c : UInt8) : Option ℤ :=
  match short.dropWhile (· ≠ c) with
  | [] => none
  | _ :: rest =>
    if rest.head? ≠ some colon then some noArgument
    else if rest.tail.head? ≠ some colon then some requiredArgument
    else some optionalArgument

/-- How `getopt` takes the character `c`. A colon or a semicolon is not an option. -/
def getoptMode (short : List UInt8) (c : UInt8) : Option ℤ :=
  if c ∈ [colon, semicolon] then none else modeAt (optstring short) c

end Getopt

/-- The options of a table that have a short form. -/
def shorts (options : List LongOption) : List LongOption :=
  (options.takeWhile fun o => o.name.isSome).filter fun o => o.Short

/-- How many colons an option with a short form adds to the string. -/
def LongOption.colons (o : LongOption) : ℕ :=
  if o.hasArg = requiredArgument then 1 else if o.hasArg = optionalArgument then 2 else 0

/-- What an option with a short form adds to the string. -/
def LongOption.piece (o : LongOption) : List UInt8 :=
  o.char :: List.replicate o.colons colon

/-- `has_arg` is one of the three values that `getopt_long` has a meaning for. -/
def LongOption.Known (o : LongOption) : Prop :=
  o.hasArg ∈ [noArgument, requiredArgument, optionalArgument]

instance (o : LongOption) : Decidable o.Known := by unfold LongOption.Known; infer_instance

/-- The character means no other thing in the string. -/
def Plain (c : UInt8) : Prop := c ∉ [plus, minus, colon, semicolon]

instance (c : UInt8) : Decidable (Plain c) := by unfold Plain; infer_instance

section Writing

variable {o : LongOption} {options : List LongOption} {written cs ds : List UInt8}

/-- Writes one character after another. -/
def puts (written cs : List UInt8) : Option (List UInt8) := cs.foldlM put written

theorem puts_append : puts written (cs ++ ds) = (puts written cs).bind fun w => puts w ds := by
  simp [puts]

theorem puts_eq (h : written.length ≤ capacity) : puts written cs =
    if written.length + cs.length ≤ capacity then some (written ++ cs) else none := by
  induction cs generalizing written with
  | nil =>
    rw [List.length_nil, Nat.add_zero, if_pos h, List.append_nil]
    rfl
  | cons c cs ih =>
    have hcons : puts written (c :: cs) = (put written c).bind fun w => puts w cs := rfl
    rw [hcons, put]
    by_cases hroom : written.length < capacity
    · have hlen : (written ++ [c]).length = written.length + 1 := by simp
      rw [if_pos hroom, Option.bind_some, ih (by omega), hlen, List.append_assoc,
        List.length_cons, Nat.add_right_comm, Nat.add_assoc]
      rfl
    · rw [if_neg hroom, if_neg]
      · rfl
      · rw [List.length_cons]
        omega

theorem puts_cons (c : UInt8) : puts written (c :: cs) = (put written c).bind fun w => puts w cs :=
  rfl

theorem puts_single (c : UInt8) : puts written [c] = put written c := by
  rw [puts_cons]
  cases put written c <;> rfl

/-- The body of the loop writes what the option adds. -/
theorem add_eq (h : o.Short) : o.add written = puts written o.piece := by
  rw [LongOption.add, if_pos h, LongOption.piece, puts_cons, LongOption.colons]
  apply Option.bind_congr
  intro w _
  split_ifs
  · exact (puts_single colon).symm
  · rw [show List.replicate 2 colon = [colon, colon] from rfl, puts_cons]
    apply Option.bind_congr
    intro w _
    exact (puts_single colon).symm
  · rfl

/-- What the loop writes for a table. -/
def letters (options : List LongOption) : List UInt8 := (shorts options).flatMap LongOption.piece

theorem addAll_eq (h : ∃ o ∈ options, o.name = none) :
    addAll options written = puts written (letters options) := by
  induction options generalizing written with
  | nil =>
    obtain ⟨o, ho, -⟩ := h
    cases ho
  | cons o options ih =>
    unfold addAll letters shorts
    -- the table ends here, or its end is further on
    by_cases hname : o.name = none
    · have hstop : ¬ o.name.isSome = true := by simp [hname]
      rw [if_pos hname, List.takeWhile_cons_of_neg (p := fun o : LongOption => o.name.isSome) hstop]
      rfl
    · have hgo : o.name.isSome = true := Option.isSome_iff_ne_none.mpr hname
      have hrest : ∃ o ∈ options, o.name = none := by
        obtain ⟨p, hp, hnone⟩ := h
        rcases List.mem_cons.mp hp with rfl | hp
        · exact absurd hnone hname
        · exact ⟨p, hp, hnone⟩
      rw [if_neg hname, List.takeWhile_cons_of_pos (p := fun o : LongOption => o.name.isSome) hgo]
      by_cases hshort : o.Short
      · rw [List.filter_cons_of_pos (by simpa using hshort), List.flatMap_cons, puts_append,
          add_eq hshort]
        apply Option.bind_congr
        intro w _
        exact ih hrest
      · rw [List.filter_cons_of_neg (by simpa using hshort), LongOption.add, if_neg hshort]
        exact ih hrest

theorem char_toNat (h : o.Short) : (o.char.toNat : ℤ) = o.val := by
  obtain ⟨-, hpos, hle⟩ := h
  have hle : o.val ≤ 255 := hle
  have hlt : o.val.toNat < 256 := by omega
  rw [LongOption.char, UInt8.toNat_ofNat_of_lt' hlt]
  omega

theorem short_of_mem (h : o ∈ shorts options) : o.Short := by
  have hfilter := List.of_mem_filter h
  simpa using hfilter

/-- Nothing that is written ends a string. -/
theorem zero_notMem_letters : 0 ∉ letters options := by
  intro hmem
  obtain ⟨o, ho, hpiece⟩ := List.mem_flatMap.mp hmem
  have hshort := short_of_mem ho
  rcases List.mem_cons.mp hpiece with hchar | hcolon
  · have hval := char_toNat hshort
    rw [← hchar] at hval
    have hpos := hshort.2.1
    simp at hval
    omega
  · exact absurd (List.eq_of_mem_replicate hcolon) (by decide)

/-- Where there is room for the table, the string is what its options add. -/
theorem cmd_eq (h : ∃ o ∈ options, o.name = none) : cmdLongOptionsToShortOptions options =
    if (letters options).length < capacity then some (letters options) else none := by
  have hzero : (letters options ++ [0]).takeWhile (· ≠ 0) = letters options := by
    rw [List.takeWhile_append_of_pos]
    · simp
    · intro c hc
      have hne : c ≠ 0 := by
        rintro rfl
        exact zero_notMem_letters hc
      simpa using hne
  unfold cmdLongOptionsToShortOptions
  rw [addAll_eq h, puts_eq (Nat.zero_le _), List.length_nil, Nat.zero_add, List.nil_append]
  by_cases hfits : (letters options).length < capacity
  · rw [if_pos hfits.le, if_pos hfits, ← hzero]
    simp only [Option.bind_eq_bind, Option.bind_some, put, hzero, if_pos hfits]
  · rw [if_neg hfits]
    split_ifs with hle
    · simp only [Option.bind_eq_bind, Option.bind_some, put, if_neg hfits, Option.bind_none]
    · rfl

end Writing

section Fitting

variable {options : List LongOption}

theorem length_piece_le (o : LongOption) : o.piece.length ≤ 3 := by
  rw [LongOption.piece, List.length_cons, List.length_replicate, LongOption.colons]
  split_ifs <;> decide

/-- There are 255 characters, and each option has two colons at most. -/
theorem length_letters_lt (h : ((shorts options).map LongOption.val).Nodup) :
    (letters options).length < capacity := by
  have hcount : (shorts options).length ≤ 255 := by
    -- different characters between 1 and 255
    have hsub : ((shorts options).map LongOption.val).toFinset ⊆ Finset.Icc 1 255 := by
      intro v hv
      obtain ⟨o, ho, rfl⟩ := List.mem_map.mp (List.mem_toFinset.mp hv)
      obtain ⟨-, hpos, hle⟩ := short_of_mem ho
      exact Finset.mem_Icc.mpr ⟨hpos, hle⟩
    have hcard := Finset.card_le_card hsub
    rw [List.toFinset_card_of_nodup h, List.length_map, Int.card_Icc] at hcard
    exact hcard
  have hlen : (letters options).length ≤ (shorts options).length * 3 := by
    rw [letters, List.length_flatMap]
    apply (List.sum_le_card_nsmul _ 3 _).trans
    · rw [List.length_map, smul_eq_mul]
    · intro n hn
      obtain ⟨o, -, rfl⟩ := List.mem_map.mp hn
      exact length_piece_le o
  unfold capacity
  omega

end Fitting

section Reading

variable {o : LongOption} {os options : List LongOption} {c : UInt8} {rest : List UInt8}

/-- The colons of an option are counted, as long as no colon is behind them. -/
theorem modeAt_here (ho : o.Known) (hrest : rest.head? ≠ some colon) :
    modeAt (o.piece ++ rest) o.char = some o.hasArg := by
  have hdrop : (o.piece ++ rest).dropWhile (· ≠ o.char) =
      o.char :: (List.replicate o.colons colon ++ rest) := by
    rw [LongOption.piece, List.cons_append, List.dropWhile_cons_of_neg (by simp)]
  rw [modeAt, hdrop, LongOption.colons]
  rcases List.mem_cons.mp ho with hno | ho
  · rw [hno]
    exact if_pos hrest
  · rcases List.mem_cons.mp ho with hrequired | ho
    · rw [hrequired]
      exact (if_neg (not_not.mpr rfl)).trans (if_pos hrest)
    · rw [List.mem_singleton.mp ho]
      exact (if_neg (not_not.mpr rfl)).trans (if_neg (not_not.mpr rfl))

/-- An option with another character is passed over. -/
theorem modeAt_there (hchar : o.char ≠ c) (hcolon : c ≠ colon) :
    modeAt (o.piece ++ rest) c = modeAt rest c := by
  have hdrop : (o.piece ++ rest).dropWhile (· ≠ c) = rest.dropWhile (· ≠ c) := by
    apply List.dropWhile_append_of_pos
    intro d hd
    rcases List.mem_cons.mp hd with rfl | hd
    · simpa using hchar
    · rw [List.eq_of_mem_replicate hd]
      simpa using hcolon.symm
  rw [modeAt, hdrop, modeAt]

theorem head_flatMap (h : ∀ o ∈ os, Plain o.char) {d : UInt8} (hd : ¬ Plain d) :
    (os.flatMap LongOption.piece).head? ≠ some d := by
  cases os with
  | nil => simp
  | cons o os =>
    intro heq
    rw [List.flatMap_cons, LongOption.piece, List.cons_append, List.head?_cons,
      Option.some.injEq] at heq
    exact hd (heq ▸ h o List.mem_cons_self)

theorem modeAt_flatMap (h : ∀ o ∈ os, Plain o.char) (hknown : ∀ o ∈ os, o.Known)
    (hcolon : c ≠ colon) : modeAt (os.flatMap LongOption.piece) c =
      (os.find? fun o => o.char = c).map LongOption.hasArg := by
  induction os with
  | nil => rfl
  | cons o os ih =>
    have hos : ∀ o ∈ os, Plain o.char := fun p hp => h p (List.mem_cons_of_mem _ hp)
    rw [List.flatMap_cons]
    by_cases hchar : o.char = c
    · rw [← hchar, modeAt_here (hknown o List.mem_cons_self) (head_flatMap hos (by decide)),
        List.find?_cons_of_pos (by simp)]
      rfl
    · rw [modeAt_there hchar hcolon, List.find?_cons_of_neg (by simpa using hchar)]
      exact ih hos fun p hp => hknown p (List.mem_cons_of_mem _ hp)

/-- A table with an end, and with a place for the string: `getopt` takes each character as
`getopt_long` takes the first option that has it, and no other one. Where each character is the short
form of one option only, there is always a place, for the whole of `short_options` at most. -/
theorem options_read_back (options : List LongOption) (hend : ∃ o ∈ options, o.name = none) :
    (cmdLongOptionsToShortOptions options ≠ none ↔
      ((shorts options).map fun o => o.colons + 1).sum < capacity) ∧
    (((shorts options).map LongOption.val).Nodup →
      cmdLongOptionsToShortOptions options ≠ none) ∧
    ∀ short, cmdLongOptionsToShortOptions options = some short →
      0 ∉ short ∧ ((∀ o ∈ shorts options, Plain o.char) → (∀ o ∈ shorts options, o.Known) →
        ∀ c, getoptMode short c =
          ((shorts options).find? fun o => o.val = (c.toNat : ℤ)).map LongOption.hasArg) := by
  have hsome : cmdLongOptionsToShortOptions options ≠ none ↔
      (letters options).length < capacity := by
    rw [cmd_eq hend]
    split_ifs with hfits <;> simp [hfits]
  have hlen : (letters options).length =
      ((shorts options).map fun o => o.colons + 1).sum := by
    rw [letters, List.length_flatMap]
    congr 1
    apply List.map_congr_left
    intro o _
    rw [LongOption.piece, List.length_cons, List.length_replicate]
  refine ⟨hlen ▸ hsome, fun hnodup => hsome.mpr (length_letters_lt hnodup), ?_⟩
  intro short hshort
  rw [cmd_eq hend] at hshort
  split_ifs at hshort
  cases hshort
  refine ⟨zero_notMem_letters, fun hplain hknown c => ?_⟩
  have hfind : ((shorts options).find? fun o => o.val = (c.toNat : ℤ)) =
      (shorts options).find? fun o => o.char = c := by
    apply List.find?_congr
    intro o ho
    have hval := char_toNat (short_of_mem ho)
    rw [decide_eq_decide, ← hval, Nat.cast_inj, UInt8.toNat_inj]
  -- no option is a sign that `getopt` would drop from the front
  have hstring : optstring (letters options) = letters options := by
    unfold optstring
    rw [if_neg]
    rintro (hplus | hminus)
    · exact head_flatMap hplain (by decide) hplus
    · exact head_flatMap hplain (by decide) hminus
  rw [hfind, getoptMode, hstring]
  split_ifs with hspecial
  · -- no option has such a character
    rw [List.find?_eq_none.mpr]
    · rfl
    · intro o ho heq
      apply hplain o ho
      rw [of_decide_eq_true heq]
      exact List.mem_cons_of_mem _ (List.mem_cons_of_mem _ hspecial)
  · apply modeAt_flatMap hplain hknown
    rintro rfl
    exact hspecial List.mem_cons_self

/-- `-o` has an argument, `-c` may have one, and `-v` has none. -/
def threeOptions : List LongOption :=
  [⟨some "output", 1, false, 111⟩, ⟨some "verbose", 0, false, 118⟩, ⟨some "debug", 1, true, 100⟩,
    ⟨some "color", 2, false, 99⟩, ⟨none, 0, false, 0⟩]

theorem options_read_back_three : ∃ short, cmdLongOptionsToShortOptions threeOptions = some short ∧
    short = [111, 58, 118, 99, 58, 58] ∧ getoptMode short 99 = some optionalArgument ∧
    getoptMode short 100 = none := by
  obtain ⟨-, -, hread⟩ := options_read_back threeOptions ⟨⟨none, 0, false, 0⟩, by decide, rfl⟩
  have hshort : cmdLongOptionsToShortOptions threeOptions = some [111, 58, 118, 99, 58, 58] := by
    decide
  obtain ⟨-, hmode⟩ := hread _ hshort
  have hplain : ∀ o ∈ shorts threeOptions, Plain o.char := by decide
  have hknown : ∀ o ∈ shorts threeOptions, o.Known := by decide
  refine ⟨_, hshort, rfl, ?_, ?_⟩
  · rw [hmode hplain hknown]
    decide
  · rw [hmode hplain hknown]
    decide

end Reading

end MgRaffle.Options
