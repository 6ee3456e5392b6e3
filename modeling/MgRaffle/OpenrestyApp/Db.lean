import MgRaffle.Library.Looping

namespace MgRaffle.OpenrestyApp
open Looping

abbrev Text := List Char

/-- The values of Lua, as far as they are told apart here: a table is its length and what its
indices hold, and a `scalar` is what can be neither indexed nor measured. -/
inductive Value (ν : Type)
  | nil
  | scalar (x : ν)
  | string (s : Text)
  | table (length : ℕ) (index : ℕ → Value ν)

namespace Value

variable {ν : Type}

/-- `v:upper()` -/
def upper : Value ν → Option Text
  | .string s => some (s.map Char.toUpper)
  | _ => none

/-- `#v` -/
def len : Value ν → Option ℕ
  | .string s => some s.length
  | .table n _ => some n
  | _ => none

/-- `v[i]`; a string has no field that is a number. -/
def index : Value ν → ℕ → Option (Value ν)
  | .string _, _ => some .nil
  | .table _ elems, i => some (elems i)
  | _, _ => none

end Value

variable {ν : Type}

/-- `table.insert(list, v)`, which does nothing for `nil`. -/
def tableInsert (list : List (Value ν)) : Value ν → List (Value ν)
  | .nil => list
  | v => list ++ [v]

/-- `clauses` and `values` of `build_where_clause`. -/
structure Where (ν : Type) where
  clauses : List Text
  values : List (Value ν)

/-- The body of `for i = 1, #value`, with `i + 1` for `i`. -/
def inStep (value : Value ν) (i : ℕ) (acc : List Text × List (Value ν)) :
    Option (List Text × List (Value ν)) := do
  let x ← value.index (i + 1)
  some (acc.1 ++ ["?".toList], tableInsert acc.2 x)

/-- The body of `for k, v in pairs(conditions)`. -/
def whereStep (w : Where ν) (k : Text) : Value ν → Option (Where ν)
  | .table _ v => do
    let operator ← (v 1).upper
    let value := v 2
    if operator = "IN".toList then do
      let n ← value.len
      let (placeholders, values) ← countUp (inStep value) n ([], w.values)
      some ⟨w.clauses ++
        [k ++ " IN (".toList ++ ", ".toList.intercalate placeholders ++ ")".toList], values⟩
    else if operator = "BETWEEN".toList then do
      let low ← value.index 1
      let high ← value.index 2
      some ⟨w.clauses ++ [k ++ " BETWEEN ? AND ?".toList],
        tableInsert (tableInsert w.values low) high⟩
    else if operator = "LIKE".toList then
      some ⟨w.clauses ++ [k ++ " LIKE ?".toList], tableInsert w.values value⟩
    else
      some ⟨w.clauses ++ [k ++ " ".toList ++ operator ++ " ?".toList], tableInsert w.values value⟩
  | v => some ⟨w.clauses ++ [k ++ " = ?".toList], tableInsert w.values v⟩

/-- `conditions` as the entries that `pairs` comes across, in its order. -/
def buildWhereClause : Option (List (Text × Value ν)) → Option (Text × List (Value ν))
  | none | some [] => some ([], [])
  | some conditions => do
    let w ← conditions.foldlM (fun w e => whereStep w e.1 e.2) ⟨[], []⟩
    some (" WHERE ".toList ++ " AND ".toList.intercalate w.clauses, w.values)

/-- The fields of `params`. -/
structure Params (ν : Type) where
  table : Text
  fields : Option Text
  order : Option Text
  limit : Option Text
  conditions : Option (List (Text × Value ν))
  data : Option (List (Text × Value ν))

/-- What is passed to `db:query`. -/
structure Query (ν : Type) where
  sql : Text
  values : List (Value ν)

def select (params : Params ν) : Option (Query ν) := do
  let fields := params.fields.getD "*".toList
  let (whereClause, whereValues) ← buildWhereClause params.conditions
  let limitClause := (params.limit.map (" LIMIT ".toList ++ ·)).getD []
  let orderClause := (params.order.map (" ORDER BY ".toList ++ ·)).getD []
  some ⟨"SELECT ".toList ++ fields ++ " FROM ".toList ++ params.table ++ whereClause ++
    orderClause ++ limitClause, whereValues⟩

/-- `fields`, `values` and `placeholders` of `M.insert`. -/
structure Row (ν : Type) where
  fields : List Text
  values : List (Value ν)
  placeholders : List Text

def Row.add (row : Row ν) (e : Text × Value ν) : Row ν :=
  ⟨row.fields ++ [e.1], tableInsert row.values e.2, row.placeholders ++ ["?".toList]⟩

def insert (params : Params ν) : Option (Query ν) := do
  let data ← params.data
  let row := data.foldl Row.add ⟨[], [], []⟩
  some ⟨"INSERT INTO ".toList ++ params.table ++ " (".toList ++
    ", ".toList.intercalate row.fields ++ ") VALUES (".toList ++
    ", ".toList.intercalate row.placeholders ++ ")".toList, row.values⟩

/-- `set_clause` and `set_values` of `M.update`. -/
structure Assignments (ν : Type) where
  clauses : List Text
  values : List (Value ν)

def Assignments.add (set : Assignments ν) (e : Text × Value ν) : Assignments ν :=
  ⟨set.clauses ++ [e.1 ++ " = ?".toList], tableInsert set.values e.2⟩

def update (params : Params ν) : Option (Query ν) := do
  let data ← params.data
  let set := data.foldl Assignments.add ⟨[], []⟩
  let (whereClause, whereValues) ← buildWhereClause params.conditions
  -- the two loops over `ipairs`
  let values := whereValues.foldl tableInsert (set.values.foldl tableInsert [])
  some ⟨"UPDATE ".toList ++ params.table ++ " SET ".toList ++ ", ".toList.intercalate set.clauses ++
    whereClause, values⟩

def delete (params : Params ν) : Option (Query ν) := do
  let (whereClause, whereValues) ← buildWhereClause params.conditions
  some ⟨"DELETE FROM ".toList ++ params.table ++ whereClause, whereValues⟩

section Clauses

/-- The clause that an entry adds. -/
def clause (k : Text) : Value ν → Option Text
  | .table _ v => do
    let operator ← (v 1).upper
    if operator = "IN".toList then do
      let n ← (v 2).len
      some (k ++ " IN (".toList ++ ", ".toList.intercalate (List.replicate n "?".toList) ++
        ")".toList)
    else if operator = "BETWEEN".toList then some (k ++ " BETWEEN ? AND ?".toList)
    else if operator = "LIKE".toList then some (k ++ " LIKE ?".toList)
    else some (k ++ " ".toList ++ operator ++ " ?".toList)
  | _ => some (k ++ " = ?".toList)

/-- The same but for what is bound: both are scalars, or both are tables with one operator, and
with `IN` as many operands. -/
def Alike : Value ν → Value ν → Prop
  | .table _ v, .table _ v' =>
    v 1 = v' 1 ∧ ((v 1).upper = some "IN".toList → (v 2).len = (v' 2).len)
  | .table _ _, _ | _, .table _ _ => False
  | _, _ => True

variable {k : Text} {v v' : Value ν} {w w' u u' : Where ν} {n : ℕ}

theorem placeholders_of_countUp {acc : List Text × List (Value ν)}
    {values : List (Value ν)} (h : countUp (inStep v) n ([], values) = some acc) :
    acc.1 = List.replicate n "?".toList := by
  refine countUp_partial (fun i acc => acc.1 = List.replicate i "?".toList) ?_ rfl h
  intro i acc acc' _ hacc hstep
  obtain ⟨x, -, hx⟩ := Option.bind_eq_some_iff.mp hstep
  cases hx
  rw [hacc, List.replicate_succ']

/-- An entry adds its clause, and no operand has a part in it. -/
theorem clause_of_whereStep (h : whereStep w k v = some u) :
    ∃ c, clause k v = some c ∧ u.clauses = w.clauses ++ [c] := by
  cases v with
  | table m elems =>
    obtain ⟨operator, hop, hrest⟩ := Option.bind_eq_some_iff.mp h
    simp only [clause, hop, Option.bind_eq_bind, Option.bind_some]
    by_cases hin : operator = "IN".toList
    · rw [if_pos hin] at hrest ⊢
      obtain ⟨n, hn, hrest⟩ := Option.bind_eq_some_iff.mp hrest
      obtain ⟨acc, hacc, hrest⟩ := Option.bind_eq_some_iff.mp hrest
      cases hrest
      rw [hn, placeholders_of_countUp hacc]
      exact ⟨_, rfl, rfl⟩
    · rw [if_neg hin] at hrest ⊢
      by_cases hbetween : operator = "BETWEEN".toList
      · rw [if_pos hbetween] at hrest ⊢
        obtain ⟨low, -, hrest⟩ := Option.bind_eq_some_iff.mp hrest
        obtain ⟨high, -, hrest⟩ := Option.bind_eq_some_iff.mp hrest
        cases hrest
        exact ⟨_, rfl, rfl⟩
      · rw [if_neg hbetween] at hrest ⊢
        by_cases hlike : operator = "LIKE".toList
        · rw [if_pos hlike] at hrest ⊢
          cases hrest
          exact ⟨_, rfl, rfl⟩
        · rw [if_neg hlike] at hrest ⊢
          cases hrest
          exact ⟨_, rfl, rfl⟩
  | nil =>
    cases h
    exact ⟨_, rfl, rfl⟩
  | scalar x =>
    cases h
    exact ⟨_, rfl, rfl⟩
  | string t =>
    cases h
    exact ⟨_, rfl, rfl⟩

theorem clause_congr (h : Alike v v') : clause k v = clause k v' := by
  cases v with
  | table m elems =>
    cases v' with
    | table m' elems' =>
      obtain ⟨hop, hlen⟩ := h
      simp only [clause, ← hop]
      cases hupper : (elems 1).upper with
      | none => rfl
      | some operator =>
        simp only [Option.bind_eq_bind, Option.bind_some]
        by_cases hin : operator = "IN".toList
        · rw [if_pos hin, if_pos hin, hlen (hupper.trans (congrArg some hin))]
        · rw [if_neg hin, if_neg hin]
    | nil => exact h.elim
    | scalar x => exact h.elim
    | string t => exact h.elim
  | nil => cases v' <;> first | exact h.elim | rfl
  | scalar x => cases v' <;> first | exact h.elim | rfl
  | string t => cases v' <;> first | exact h.elim | rfl

theorem clauses_congr {conditions conditions' : List (Text × Value ν)}
    (h : List.Forall₂ (fun e e' => e.1 = e'.1 ∧ Alike e.2 e'.2) conditions conditions')
    (hw : w.clauses = w'.clauses)
    (hu : conditions.foldlM (fun w e => whereStep w e.1 e.2) w = some u)
    (hu' : conditions'.foldlM (fun w e => whereStep w e.1 e.2) w' = some u') :
    u.clauses = u'.clauses := by
  induction h generalizing w w' with
  | nil =>
    cases hu
    cases hu'
    exact hw
  | @cons e e' conditions conditions' he _ ih =>
    obtain ⟨t, ht, hu⟩ := Option.bind_eq_some_iff.mp hu
    obtain ⟨t', ht', hu'⟩ := Option.bind_eq_some_iff.mp hu'
    obtain ⟨c, hc, htc⟩ := clause_of_whereStep ht
    obtain ⟨c', hc', htc'⟩ := clause_of_whereStep ht'
    have hcc : c = c' := by
      rw [← he.1, ← clause_congr he.2, hc] at hc'
      exact Option.some.inj hc'
    refine ih ?_ hu hu'
    rw [htc, htc', hw, hcc]

theorem whereClause_congr {conditions conditions' : Option (List (Text × Value ν))}
    {x x' : Text × List (Value ν)}
    (h : List.Forall₂ (fun e e' => e.1 = e'.1 ∧ Alike e.2 e'.2) (conditions.getD [])
      (conditions'.getD []))
    (hx : buildWhereClause conditions = some x) (hx' : buildWhereClause conditions' = some x') :
    x.1 = x'.1 := by
  have hnil : ∀ {c : Option (List (Text × Value ν))} {y : Text × List (Value ν)}, c.getD [] = [] →
      buildWhereClause c = some y → y.1 = [] := by
    rintro (_ | _ | _) y hc hy
    · cases hy
      rfl
    · cases hy
      rfl
    · cases hc
  have hcons : ∀ {c : Option (List (Text × Value ν))} {y : Text × List (Value ν)}, c.getD [] ≠ [] →
      buildWhereClause c = some y →
      ∃ w, (c.getD []).foldlM (fun w e => whereStep w e.1 e.2) ⟨[], []⟩ = some w ∧
        y.1 = " WHERE ".toList ++ " AND ".toList.intercalate w.clauses := by
    rintro (_ | _ | _) y hc hy
    · exact absurd rfl hc
    · exact absurd rfl hc
    · obtain ⟨w, hw, hy⟩ := Option.bind_eq_some_iff.mp hy
      cases hy
      exact ⟨w, hw, rfl⟩
  by_cases hempty : conditions.getD [] = []
  · have hempty' : conditions'.getD [] = [] := by
      rw [hempty] at h
      exact List.forall₂_nil_left_iff.mp h
    rw [hnil hempty hx, hnil hempty' hx']
  · have hempty' : conditions'.getD [] ≠ [] := by
      intro hnil'
      rw [hnil'] at h
      exact hempty (List.forall₂_nil_right_iff.mp h)
    obtain ⟨w, hw, hy⟩ := hcons hempty hx
    obtain ⟨w', hw', hy'⟩ := hcons hempty' hx'
    rw [hy, hy', clauses_congr h rfl hw hw']

end Clauses

section Agreement

/-- All that is not bound is the same: tables, columns in one order, operators, and the number of
operands of each `IN`. -/
structure Agree (p p' : Params ν) : Prop where
  table : p.table = p'.table
  fields : p.fields = p'.fields
  order : p.order = p'.order
  limit : p.limit = p'.limit
  conditions : List.Forall₂ (fun e e' => e.1 = e'.1 ∧ Alike e.2 e'.2) (p.conditions.getD [])
    (p'.conditions.getD [])
  data : List.Forall₂ (fun e e' => e.1 = e'.1) (p.data.getD []) (p'.data.getD [])

variable {p p' : Params ν} {q q' : Query ν} {data data' : List (Text × Value ν)}

theorem row_congr {row row' : Row ν} (h : List.Forall₂ (fun e e' => e.1 = e'.1) data data')
    (hfields : row.fields = row'.fields) (hplaceholders : row.placeholders = row'.placeholders) :
    (data.foldl Row.add row).fields = (data'.foldl Row.add row').fields ∧
      (data.foldl Row.add row).placeholders = (data'.foldl Row.add row').placeholders := by
  induction h generalizing row row' with
  | nil => exact ⟨hfields, hplaceholders⟩
  | cons he _ ih =>
    refine ih ?_ ?_
    · rw [Row.add, Row.add, hfields, he]
    · rw [Row.add, Row.add, hplaceholders]

theorem assignments_congr {set set' : Assignments ν}
    (h : List.Forall₂ (fun e e' => e.1 = e'.1) data data') (hset : set.clauses = set'.clauses) :
    (data.foldl Assignments.add set).clauses = (data'.foldl Assignments.add set').clauses := by
  induction h generalizing set set' with
  | nil => exact hset
  | cons he _ ih =>
    refine ih ?_
    rw [Assignments.add, Assignments.add, hset, he]

theorem select_congr (h : Agree p p') (hq : select p = some q) (hq' : select p' = some q') :
    q.sql = q'.sql := by
  obtain ⟨x, hx, hq⟩ := Option.bind_eq_some_iff.mp hq
  obtain ⟨x', hx', hq'⟩ := Option.bind_eq_some_iff.mp hq'
  cases hq
  cases hq'
  rw [whereClause_congr h.conditions hx hx', h.table, h.fields, h.order, h.limit]

theorem insert_congr (h : Agree p p') (hq : insert p = some q) (hq' : insert p' = some q') :
    q.sql = q'.sql := by
  obtain ⟨data, hdata, hq⟩ := Option.bind_eq_some_iff.mp hq
  obtain ⟨data', hdata', hq'⟩ := Option.bind_eq_some_iff.mp hq'
  cases hq
  cases hq'
  have hagree := h.data
  rw [hdata, hdata', Option.getD_some, Option.getD_some] at hagree
  obtain ⟨hfields, hplaceholders⟩ :=
    @row_congr ν data data' ⟨[], [], []⟩ ⟨[], [], []⟩ hagree rfl rfl
  rw [hfields, hplaceholders, h.table]

theorem update_congr (h : Agree p p') (hq : update p = some q) (hq' : update p' = some q') :
    q.sql = q'.sql := by
  obtain ⟨data, hdata, hq⟩ := Option.bind_eq_some_iff.mp hq
  obtain ⟨data', hdata', hq'⟩ := Option.bind_eq_some_iff.mp hq'
  obtain ⟨x, hx, hq⟩ := Option.bind_eq_some_iff.mp hq
  obtain ⟨x', hx', hq'⟩ := Option.bind_eq_some_iff.mp hq'
  cases hq
  cases hq'
  have hagree := h.data
  rw [hdata, hdata', Option.getD_some, Option.getD_some] at hagree
  rw [assignments_congr hagree rfl, whereClause_congr h.conditions hx hx', h.table]

theorem delete_congr (h : Agree p p') (hq : delete p = some q) (hq' : delete p' = some q') :
    q.sql = q'.sql := by
  obtain ⟨x, hx, hq⟩ := Option.bind_eq_some_iff.mp hq
  obtain ⟨x', hx', hq'⟩ := Option.bind_eq_some_iff.mp hq'
  cases hq
  cases hq'
  rw [whereClause_congr h.conditions hx hx', h.table]

/-- No value that is bound reaches the text of a query. -/
theorem sql_eq_of_agree (h : Agree p p') :
    (∀ q q', select p = some q → select p' = some q' → q.sql = q'.sql) ∧
    (∀ q q', insert p = some q → insert p' = some q' → q.sql = q'.sql) ∧
    (∀ q q', update p = some q → update p' = some q' → q.sql = q'.sql) ∧
    (∀ q q', delete p = some q → delete p' = some q' → q.sql = q'.sql) :=
  ⟨fun _ _ => select_congr h, fun _ _ => insert_congr h, fun _ _ => update_congr h,
    fun _ _ => delete_congr h⟩

/-- Users by their name, with `name` for a new one. -/
def usersNamed (old new : Text) : Params ℕ where
  table := "users".toList
  fields := none
  order := none
  limit := none
  conditions := some [("name".toList, .string old)]
  data := some [("name".toList, .string new)]

theorem sql_eq_usersNamed : ∃ q q', update (usersNamed "a".toList "b".toList) = some q ∧
    update (usersNamed "' OR 1 = 1".toList "?".toList) = some q' ∧ q.sql = q'.sql := by
  have hagree : Agree (usersNamed "a".toList "b".toList)
      (usersNamed "' OR 1 = 1".toList "?".toList) :=
    ⟨rfl, rfl, rfl, rfl, .cons ⟨rfl, trivial⟩ .nil, .cons rfl .nil⟩
  exact ⟨_, _, rfl, rfl, (sql_eq_of_agree hagree).2.2.1 _ _ rfl rfl⟩

end Agreement

end MgRaffle.OpenrestyApp
