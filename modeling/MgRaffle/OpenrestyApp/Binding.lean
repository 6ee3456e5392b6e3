import MgRaffle.Library.Placeholders
import MgRaffle.OpenrestyApp.Db

namespace MgRaffle.OpenrestyApp
open Looping Placeholders

variable {ν : Type}

/-- The elements of a list. -/
def Value.elements : Value ν → List (Value ν)
  | .table n elems => (List.range n).map fun i => elems (i + 1)
  | _ => []

def Value.bounds : Value ν → List (Value ν)
  | .table _ elems => [elems 1, elems 2]
  | _ => []

/-- What an entry compares its column with, in the order of its clause. -/
def operands : Value ν → List (Value ν)
  | .table _ v =>
    if (v 1).upper = some "IN".toList then (v 2).elements
    else if (v 1).upper = some "BETWEEN".toList then (v 2).bounds
    else [v 2]
  | v => [v]

/-- A value that `pairs` can come across, with all its operands. -/
def Complete : Value ν → Prop
  | .nil => False
  | .table _ v => ∃ operator, v 1 = .string operator ∧ '?' ∉ operator ∧
    if (v 1).upper = some "IN".toList then
      ∃ n elems, v 2 = .table n elems ∧ ∀ i < n, elems (i + 1) ≠ .nil
    else if (v 1).upper = some "BETWEEN".toList then
      ∃ n elems, v 2 = .table n elems ∧ elems 1 ≠ .nil ∧ elems 2 ≠ .nil
    else v 2 ≠ .nil
  | _ => True

variable {k : Text} {v : Value ν} {w : Where ν}

theorem tableInsert_of_ne_nil (list : List (Value ν)) (h : v ≠ .nil) :
    tableInsert list v = list ++ [v] := by
  cases v with
  | nil => exact absurd rfl h
  | scalar x => rfl
  | string s => rfl
  | table n elems => rfl

theorem foldl_tableInsert {list values : List (Value ν)} (h : ∀ v ∈ values, v ≠ .nil) :
    values.foldl tableInsert list = list ++ values := by
  induction values generalizing list with
  | nil => exact (List.append_nil list).symm
  | cons v values ih =>
    obtain ⟨hv, hvalues⟩ := List.forall_mem_cons.mp h
    rw [List.foldl_cons, tableInsert_of_ne_nil list hv, ih hvalues, List.append_assoc]
    rfl

/-- The loop over a list without `nil` adds a mark and a value for each element. -/
theorem countUp_inStep {m n : ℕ} {elems : ℕ → Value ν} {values : List (Value ν)}
    (h : ∀ i < n, elems (i + 1) ≠ .nil) :
    countUp (inStep (.table m elems)) n ([], values) =
      some (List.replicate n "?".toList,
        values ++ (List.range n).map fun i => elems (i + 1)) := by
  induction n with
  | zero =>
    rw [List.range_zero, List.map_nil, List.append_nil]
    rfl
  | succ n ih =>
    have hn := h n n.lt_succ_self
    rw [countUp, ih fun i hi => h i (hi.trans n.lt_succ_self), Option.bind_some]
    change some (_, tableInsert _ (elems (n + 1))) = _
    rw [tableInsert_of_ne_nil _ hn, List.replicate_succ', List.range_succ, List.map_append,
      List.append_assoc]
    rfl

theorem count_replicate (n : ℕ) :
    (", ".toList.intercalate (List.replicate n "?".toList)).count '?' = n := by
  induction n with
  | zero => rfl
  | succ n ih =>
    cases n with
    | zero => rfl
    | succ n =>
      have htext : ", ".toList.intercalate (List.replicate (n + 2) "?".toList) =
          "?, ".toList ++ ", ".toList.intercalate (List.replicate (n + 1) "?".toList) := rfl
      rw [htext, List.count_append, ih]
      change 1 + (n + 1) = n + 2
      omega

theorem toUpper_ne_mark {c : Char} (h : c ≠ '?') : c.toUpper ≠ '?' := by
  intro hup
  unfold Char.toUpper at hup
  split at hup
  · rename_i hc
    have hlow : 97 ≤ c.val.toNat := hc.1
    have hhigh : c.val.toNat ≤ 122 := hc.2
    have hdiff : ('A'.val - 'a'.val).toNat = 4294967264 := by decide
    have hmark : '?'.val.toNat = 63 := by decide
    have hval := congrArg Char.val hup
    dsimp only at hval
    have hnat := congrArg UInt32.toNat hval
    rw [UInt32.toNat_add, hdiff, hmark] at hnat
    omega
  · exact h hup

theorem notMem_upper {operator : Text} (h : '?' ∉ operator) : '?' ∉ operator.map Char.toUpper := by
  intro hmem
  obtain ⟨c, hc, hup⟩ := List.mem_map.mp hmem
  refine toUpper_ne_mark ?_ hup
  rintro rfl
  exact h hc

/-- What a complete entry adds, and the marks of its clause. -/
theorem whereStep_of_complete (hk : '?' ∉ k) (h : Complete v) (w : Where ν) :
    ∃ c, clause k v = some c ∧ whereStep w k v = some ⟨w.clauses ++ [c], w.values ++ operands v⟩ ∧
      c.count '?' = (operands v).length := by
  have hkcount : k.count '?' = 0 := List.count_eq_zero.mpr hk
  cases v with
  | nil => exact h.elim
  | scalar x =>
    refine ⟨_, rfl, rfl, ?_⟩
    rw [List.count_append, hkcount]
    rfl
  | string s =>
    refine ⟨_, rfl, rfl, ?_⟩
    rw [List.count_append, hkcount]
    rfl
  | table m elems =>
    obtain ⟨operator, hop, hmark, hoperands⟩ := h
    have hupper : (elems 1).upper = some (operator.map Char.toUpper) := by rw [hop]; rfl
    simp only [clause, whereStep, operands, hupper, Option.bind_eq_bind, Option.bind_some,
      Option.some.injEq] at hoperands ⊢
    by_cases hin : operator.map Char.toUpper = "IN".toList
    · -- as many marks as elements: a `nil` among them would be marked but not bound
      simp only [if_pos hin] at hoperands ⊢
      obtain ⟨n, list, hlist, hne⟩ := hoperands
      rw [hlist]
      simp only [Value.len, Option.bind_some, countUp_inStep hne]
      refine ⟨_, rfl, rfl, ?_⟩
      rw [List.count_append, List.count_append, List.count_append, hkcount, count_replicate]
      change 0 + 0 + n + 0 = _
      rw [Value.elements, List.length_map, List.length_range]
      omega
    · simp only [if_neg hin] at hoperands ⊢
      by_cases hbetween : operator.map Char.toUpper = "BETWEEN".toList
      · simp only [if_pos hbetween] at hoperands ⊢
        obtain ⟨n, list, hlist, hlow, hhigh⟩ := hoperands
        rw [hlist]
        refine ⟨_, rfl, ?_, ?_⟩
        · change some (Where.mk _ (tableInsert (tableInsert w.values (list 1)) (list 2))) = _
          rw [tableInsert_of_ne_nil _ hlow, tableInsert_of_ne_nil _ hhigh, List.append_assoc]
          rfl
        · rw [List.count_append, hkcount]
          rfl
      · simp only [if_neg hbetween] at hoperands ⊢
        have hmarks : ∀ t : Text, t.count '?' = 1 → (k ++ t).count '?' = 1 := by
          intro t ht
          rw [List.count_append, hkcount, ht]
        by_cases hlike : operator.map Char.toUpper = "LIKE".toList
        · simp only [if_pos hlike, tableInsert_of_ne_nil _ hoperands]
          exact ⟨_, rfl, rfl, hmarks _ rfl⟩
        · simp only [if_neg hlike, tableInsert_of_ne_nil _ hoperands]
          refine ⟨_, rfl, rfl, ?_⟩
          rw [List.append_assoc, List.append_assoc]
          refine hmarks _ ?_
          rw [List.count_append, List.count_append, List.count_eq_zero.mpr (notMem_upper hmark)]
          rfl

/-- The clauses of the entries with their operands. -/
def whereItems (conditions : List (Text × Value ν)) : List (Text × List (Value ν)) :=
  conditions.map fun e => ((clause e.1 e.2).getD [], operands e.2)

/-- The clauses of `SET`. -/
def setItems (data : List (Text × Value ν)) : List (Text × List (Value ν)) :=
  data.map fun e => (e.1 ++ " = ?".toList, [e.2])

theorem foldlM_whereStep {conditions : List (Text × Value ν)}
    (h : ∀ e ∈ conditions, '?' ∉ e.1 ∧ Complete e.2) (w : Where ν) :
    conditions.foldlM (fun w e => whereStep w e.1 e.2) w =
        some ⟨w.clauses ++ (whereItems conditions).map Prod.fst,
          w.values ++ ((whereItems conditions).map Prod.snd).flatten⟩ ∧
      ∀ item ∈ whereItems conditions, item.1.count '?' = item.2.length := by
  induction conditions generalizing w with
  | nil =>
    refine ⟨?_, List.forall_mem_nil _⟩
    change some w = some ⟨w.clauses ++ [], w.values ++ []⟩
    rw [List.append_nil, List.append_nil]
  | cons e conditions ih =>
    obtain ⟨⟨hk, hv⟩, hrest⟩ := List.forall_mem_cons.mp h
    obtain ⟨c, hc, hstep, hcount⟩ := whereStep_of_complete hk hv w
    obtain ⟨hfold, hitems⟩ := ih hrest ⟨w.clauses ++ [c], w.values ++ operands e.2⟩
    have hitem : whereItems (e :: conditions) = (c, operands e.2) :: whereItems conditions := by
      rw [whereItems, List.map_cons, hc]
      rfl
    rw [hitem]
    refine ⟨?_, List.forall_mem_cons.mpr ⟨hcount, hitems⟩⟩
    rw [List.foldlM_cons, hstep, Option.bind_eq_bind, Option.bind_some, hfold, List.map_cons,
      List.map_cons, List.flatten_cons, List.append_assoc, List.append_assoc]
    rfl

theorem operands_ne_nil (h : Complete v) : ∀ x ∈ operands v, x ≠ .nil := by
  intro x hx
  cases v with
  | nil => exact h.elim
  | scalar y =>
    rw [List.mem_singleton.mp hx]
    exact fun hnil => nomatch hnil
  | string s =>
    rw [List.mem_singleton.mp hx]
    exact fun hnil => nomatch hnil
  | table m elems =>
    obtain ⟨operator, -, -, hoperands⟩ := h
    simp only [operands] at hx
    by_cases hin : (elems 1).upper = some "IN".toList
    · rw [if_pos hin] at hoperands hx
      obtain ⟨n, list, hlist, hne⟩ := hoperands
      rw [hlist] at hx
      obtain ⟨i, hi, rfl⟩ := List.mem_map.mp hx
      exact hne i (List.mem_range.mp hi)
    · rw [if_neg hin] at hoperands hx
      by_cases hbetween : (elems 1).upper = some "BETWEEN".toList
      · rw [if_pos hbetween] at hoperands hx
        obtain ⟨n, list, hlist, hlow, hhigh⟩ := hoperands
        rw [hlist] at hx
        rcases List.mem_pair.mp hx with rfl | rfl
        · exact hlow
        · exact hhigh
      · rw [if_neg hbetween] at hoperands hx
        rw [List.mem_singleton.mp hx]
        exact hoperands

/-- Each mark of the `WHERE` clause stands for its own operand. -/
theorem whereClause_bound {conditions : Option (List (Text × Value ν))}
    (h : ∀ e ∈ conditions.getD [], '?' ∉ e.1 ∧ Complete e.2) :
    ∃ text values, buildWhereClause conditions = some (text, values) ∧
      Bound '?' text values (place 7 5 (whereItems (conditions.getD []))) ∧
      ∀ v ∈ values, v ≠ .nil := by
  match conditions, h with
  | none, _ | some [], _ => exact ⟨[], [], rfl, .plain List.not_mem_nil, List.forall_mem_nil _⟩
  | some (e :: es), h =>
    -- the first clause stands behind `" WHERE "`, the next ones behind an `" AND "` each
    rw [Option.getD_some] at h ⊢
    obtain ⟨hfold, hcount⟩ := foldlM_whereStep h ⟨[], []⟩
    have hwhere : '?' ∉ " WHERE ".toList := by decide
    have hand : '?' ∉ " AND ".toList := by decide
    have hbound := (Bound.plain (β := Value ν) hwhere).append (Bound.intercalate hand _ hcount)
    rw [place_shift] at hbound
    refine ⟨_, _, ?_, hbound, ?_⟩
    · rw [buildWhereClause, hfold]
      · rfl
      · exact List.cons_ne_nil e es
    · intro v hv
      obtain ⟨values, hvalues, hmem⟩ := List.mem_flatten.mp hv
      obtain ⟨item, hitem, rfl⟩ := List.mem_map.mp hvalues
      obtain ⟨f, hf, rfl⟩ := List.mem_map.mp hitem
      exact operands_ne_nil (h f hf).2 v hmem

theorem foldl_assignments {data : List (Text × Value ν)} (h : ∀ e ∈ data, '?' ∉ e.1 ∧ e.2 ≠ .nil)
    (set : Assignments ν) :
    data.foldl Assignments.add set =
      ⟨set.clauses ++ (setItems data).map Prod.fst,
        set.values ++ ((setItems data).map Prod.snd).flatten⟩ := by
  induction data generalizing set with
  | nil =>
    change set = ⟨set.clauses ++ [], set.values ++ []⟩
    rw [List.append_nil, List.append_nil]
  | cons e data ih =>
    obtain ⟨⟨-, hv⟩, hrest⟩ := List.forall_mem_cons.mp h
    rw [List.foldl_cons, ih hrest, Assignments.add, tableInsert_of_ne_nil _ hv, List.append_assoc,
      List.append_assoc]
    rfl

theorem count_setItems {data : List (Text × Value ν)} (h : ∀ e ∈ data, '?' ∉ e.1 ∧ e.2 ≠ .nil) :
    ∀ item ∈ setItems data, item.1.count '?' = item.2.length := by
  intro item hitem
  obtain ⟨e, he, rfl⟩ := List.mem_map.mp hitem
  rw [List.count_append, List.count_eq_zero.mpr (h e he).1]
  rfl

/-- Where the clauses of `SET` and of `WHERE` stand in the statement of `M.update`. -/
def updateParts (table : Text) (data conditions : List (Text × Value ν)) :
    List (Placed Char (Value ν)) :=
  let set := ", ".toList.intercalate ((setItems data).map Prod.fst)
  place (12 + table.length) 2 (setItems data) ++
    place (12 + table.length + set.length + 7) 5 (whereItems conditions)

theorem notMem_command {front table back : Text} (hfront : '?' ∉ front) (htable : '?' ∉ table)
    (hback : '?' ∉ back) : '?' ∉ front ++ table ++ back := by
  intro hmem
  rw [List.mem_append, List.mem_append] at hmem
  rcases hmem with (hmem | hmem) | hmem
  · exact hfront hmem
  · exact htable hmem
  · exact hback hmem

theorem update_bound {p : Params ν} {data : List (Text × Value ν)} (hdata : p.data = some data)
    (htable : '?' ∉ p.table) (hset : ∀ e ∈ data, '?' ∉ e.1 ∧ e.2 ≠ .nil)
    (hwhere : ∀ e ∈ p.conditions.getD [], '?' ∉ e.1 ∧ Complete e.2) :
    ∃ q, update p = some q ∧
      Bound '?' q.sql q.values (updateParts p.table data (p.conditions.getD [])) := by
  obtain ⟨text, values, hclause, hbound, hne⟩ := whereClause_bound hwhere
  have hsetne : ∀ v ∈ ((setItems data).map Prod.snd).flatten, v ≠ .nil := by
    intro v hv
    obtain ⟨vs, hvs, hmem⟩ := List.mem_flatten.mp hv
    obtain ⟨item, hitem, rfl⟩ := List.mem_map.mp hvs
    obtain ⟨e, he, rfl⟩ := List.mem_map.mp hitem
    rw [List.mem_singleton.mp hmem]
    exact (hset e he).2
  have hplain := notMem_command (by decide : '?' ∉ "UPDATE ".toList) htable
    (by decide : '?' ∉ " SET ".toList)
  have hcomma : '?' ∉ ", ".toList := by decide
  have hlength : ("UPDATE ".toList ++ p.table ++ " SET ".toList).length = 12 + p.table.length := by
    rw [List.length_append, List.length_append]
    change 7 + p.table.length + 5 = _
    omega
  obtain ⟨pre, hpre⟩ : ∃ pre, pre = "UPDATE ".toList ++ p.table ++ " SET ".toList := ⟨_, rfl⟩
  rw [← hpre] at hplain hlength
  have hparts := ((Bound.plain (β := Value ν) hplain).append
    (Bound.intercalate hcomma _ (count_setItems hset))).append hbound
  rw [List.nil_append, List.nil_append, place_shift, place_shift, List.length_append, hlength]
    at hparts
  refine ⟨⟨_, _⟩, ?_, hparts⟩
  rw [update, hdata, hclause, hpre]
  simp only [Option.bind_eq_bind, Option.bind_some, foldl_assignments hset, List.nil_append]
  rw [foldl_tableInsert hsetne, foldl_tableInsert hne]
  rfl

/-- The same holds of `M.delete`, whose `WHERE` clause stands behind the table's name. -/
theorem delete_bound {p : Params ν} (htable : '?' ∉ p.table)
    (hwhere : ∀ e ∈ p.conditions.getD [], '?' ∉ e.1 ∧ Complete e.2) :
    ∃ q, delete p = some q ∧
      Bound '?' q.sql q.values
        (place (12 + p.table.length + 7) 5 (whereItems (p.conditions.getD []))) := by
  obtain ⟨text, values, hclause, hbound, -⟩ := whereClause_bound hwhere
  have hplain := notMem_command (by decide : '?' ∉ "DELETE FROM ".toList) htable List.not_mem_nil
  rw [List.append_nil] at hplain
  have hlength : ("DELETE FROM ".toList ++ p.table).length = 12 + p.table.length :=
    List.length_append
  have hparts := (Bound.plain (β := Value ν) hplain).append hbound
  rw [List.nil_append, List.nil_append, place_shift, hlength] at hparts
  refine ⟨⟨_, _⟩, ?_, hparts⟩
  rw [delete, hclause]
  rfl

/-- Every mark stands for a value of its own, the operand of the column and the position that it
stands at: in the text of `build_where_clause`, and in the whole statement of `M.update`. -/
theorem placeholders_bound :
    (∀ conditions : Option (List (Text × Value ν)),
      (∀ e ∈ conditions.getD [], '?' ∉ e.1 ∧ Complete e.2) →
      ∃ text values, buildWhereClause conditions = some (text, values) ∧
        Bound '?' text values (place 7 5 (whereItems (conditions.getD [])))) ∧
    ∀ (p : Params ν) (data : List (Text × Value ν)), p.data = some data → '?' ∉ p.table →
      (∀ e ∈ data, '?' ∉ e.1 ∧ e.2 ≠ .nil) →
      (∀ e ∈ p.conditions.getD [], '?' ∉ e.1 ∧ Complete e.2) →
      ∃ q, update p = some q ∧
        Bound '?' q.sql q.values (updateParts p.table data (p.conditions.getD [])) := by
  constructor
  · intro conditions h
    obtain ⟨text, values, hclause, hbound, -⟩ := whereClause_bound h
    exact ⟨text, values, hclause, hbound⟩
  · intro p data hdata htable hset hwhere
    exact update_bound hdata htable hset hwhere

/-- Two bounds and a list, and a column to set. -/
def adults : Params ℕ where
  table := "users".toList
  fields := none
  order := none
  limit := none
  conditions := some
    [("age".toList, .table 2 fun i => if i = 1 then .string "between".toList else
        .table 2 fun j => .scalar (18 * j)),
      ("id".toList, .table 2 fun i => if i = 1 then .string "in".toList else
        .table 3 fun j => .scalar (100 + j)),
      ("name".toList, .string "a?".toList)]
  data := some [("state".toList, .scalar 1)]

/-- `SET state = ? WHERE age BETWEEN ? AND ? AND id IN (?, ?, ?) AND name = ?` -/
theorem placeholders_bound_adults :
    ∃ q, update adults = some q ∧ q.values.length = 7 ∧
      Bound '?' q.sql q.values
        (updateParts adults.table (adults.data.getD []) (adults.conditions.getD [])) := by
  have hcomplete : ∀ e ∈ adults.conditions.getD [], '?' ∉ e.1 ∧ Complete e.2 := by
    intro e he
    rcases List.mem_cons.mp he with rfl | he
    · exact ⟨by decide, "between".toList, rfl, by decide, 2, _, rfl, nofun, nofun⟩
    rcases List.mem_cons.mp he with rfl | he
    · exact ⟨by decide, "in".toList, rfl, by decide, 3, _, rfl, fun _ _ => nofun⟩
    rcases List.mem_singleton.mp he with rfl
    exact ⟨by decide, trivial⟩
  have hset : ∀ e ∈ [("state".toList, (.scalar 1 : Value ℕ))], '?' ∉ e.1 ∧ e.2 ≠ .nil := by
    intro e he
    rcases List.mem_singleton.mp he with rfl
    exact ⟨by decide, nofun⟩
  obtain ⟨q, hq, hbound⟩ := placeholders_bound.2 adults _ rfl (by decide) hset hcomplete
  refine ⟨q, hq, ?_, hbound⟩
  cases hq
  rfl

end MgRaffle.OpenrestyApp
