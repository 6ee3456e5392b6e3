import Mathlib.Tactic

namespace Placeholders

variable {α β : Type*}

/-- A part of a text by its place in it, and the values that its marks stand for. -/
structure Placed (α β : Type*) where
  offset : ℕ
  text : List α
  operands : List β

def Placed.shift (n : ℕ) (c : Placed α β) : Placed α β := ⟨n + c.offset, c.text, c.operands⟩

/-- Parts one after another from `offset` on, with `sep` characters between them. -/
def place (offset sep : ℕ) : List (List α × List β) → List (Placed α β)
  | [] => []
  | (text, operands) :: parts =>
    ⟨offset, text, operands⟩ :: place (offset + (text.length + sep)) sep parts

theorem place_shift (n offset sep : ℕ) (parts : List (List α × List β)) :
    (place offset sep parts).map (Placed.shift n) = place (n + offset) sep parts := by
  induction parts generalizing offset with
  | nil => rfl
  | cons part parts ih =>
    obtain ⟨text, operands⟩ := part
    rw [place, place, List.map_cons, ih, Placed.shift, Nat.add_assoc]

variable [DecidableEq α] (mark : α)

/-- There are as many marks in the text as values, and the `k`-th mark lies in one of the parts,
where it is the mark of the operand that is the `k`-th value. -/
structure Bound (text : List α) (values : List β) (parts : List (Placed α β)) : Prop where
  count : text.count mark = values.length
  placed : ∀ c ∈ parts, c.text <+: text.drop c.offset
  marked : ∀ p, text[p]? = some mark → ∃ c ∈ parts, ∃ q < c.text.length, p = c.offset + q ∧
    ∃ x, values[(text.take p).count mark]? = some x ∧
      c.operands[(c.text.take q).count mark]? = some x

namespace Bound

variable {mark} {text text' : List α} {values values' : List β} {parts parts' : List (Placed α β)}

/-- A text without marks. -/
theorem plain (h : mark ∉ text) : Bound mark text ([] : List β) [] where
  count := List.count_eq_zero.mpr h
  placed := List.forall_mem_nil _
  marked _ hp := absurd (List.mem_of_getElem? hp) h

theorem count_take_lt {p : ℕ} (hp : text[p]? = some mark) :
    (text.take p).count mark < text.count mark := by
  obtain ⟨hlt, hval⟩ := List.getElem?_eq_some_iff.mp hp
  have hsplit : text.count mark = (text.take p).count mark + (text.drop p).count mark := by
    rw [← List.count_append, List.take_append_drop]
  rw [List.drop_eq_getElem_cons hlt, hval, List.count_cons_self] at hsplit
  omega

/-- One part, with as many operands as marks. -/
theorem single (h : text.count mark = values.length) :
    Bound mark text values [⟨0, text, values⟩] where
  count := h
  placed c hc := by
    rw [List.mem_singleton.mp hc]
    exact List.prefix_refl _
  marked p hp := by
    have hlt := count_take_lt hp
    rw [h] at hlt
    have hx := List.getElem?_eq_getElem hlt
    have hp' := (List.getElem?_eq_some_iff.mp hp).1
    exact ⟨_, List.mem_singleton_self _, p, hp', (Nat.zero_add p).symm, _, hx, hx⟩

theorem append (h : Bound mark text values parts) (h' : Bound mark text' values' parts') :
    Bound mark (text ++ text') (values ++ values')
      (parts ++ parts'.map (Placed.shift text.length)) where
  count := by rw [List.count_append, h.count, h'.count, List.length_append]
  placed c hc := by
    rw [List.drop_append]
    rcases List.mem_append.mp hc with hc | hc
    · exact (h.placed c hc).trans (List.prefix_append _ _)
    · obtain ⟨d, hd, rfl⟩ := List.mem_map.mp hc
      have hgone : text.drop (text.length + d.offset) = [] :=
        List.drop_eq_nil_of_le (Nat.le_add_right _ _)
      rw [Placed.shift, hgone, List.nil_append, Nat.add_sub_cancel_left]
      exact h'.placed d hd
  marked p hp := by
    by_cases hlt : p < text.length
    · rw [List.getElem?_append_left hlt] at hp
      obtain ⟨c, hc, q, hq, hpq, x, hval, hop⟩ := h.marked p hp
      refine ⟨c, List.mem_append_left _ hc, q, hq, hpq, x, ?_, hop⟩
      rw [List.take_append_of_le_length hlt.le]
      exact (List.getElem?_append_left (List.getElem?_eq_some_iff.mp hval).1).trans hval
    · have hge : text.length ≤ p := not_lt.mp hlt
      rw [List.getElem?_append_right hge] at hp
      obtain ⟨c, hc, q, hq, hpq, x, hval, hop⟩ := h'.marked _ hp
      refine ⟨c.shift text.length, List.mem_append_right _ (List.mem_map_of_mem hc), q, hq, ?_, x,
        ?_, hop⟩
      · change p = text.length + c.offset + q
        omega
      · -- all marks of the first text come before
        rw [List.take_append, List.take_of_length_le hge, List.count_append, h.count,
          List.getElem?_append_right (Nat.le_add_right _ _), Nat.add_sub_cancel_left]
        exact hval

/-- Parts with a separator that has no marks between them. -/
theorem intercalate {sep : List α} (hsep : mark ∉ sep) (items : List (List α × List β))
    (h : ∀ item ∈ items, item.1.count mark = item.2.length) :
    Bound mark (sep.intercalate (items.map Prod.fst)) (items.map Prod.snd).flatten
      (place 0 sep.length items) := by
  induction items with
  | nil => exact plain (List.not_mem_nil)
  | cons item items ih =>
    obtain ⟨hitem, hitems⟩ := List.forall_mem_cons.mp h
    have hrest := ih hitems
    cases items with
    | nil =>
      rw [List.map_singleton, List.map_singleton, List.intercalate_singleton,
        List.flatten_singleton]
      exact single hitem
    | cons item' items =>
      have happend := (single hitem).append ((plain hsep).append hrest)
      rw [List.nil_append, List.nil_append, place_shift, place_shift] at happend
      have hplace : place 0 sep.length (item :: item' :: items) =
          [⟨0, item.1, item.2⟩] ++
            place (item.1.length + (sep.length + 0)) sep.length (item' :: items) := by
        rw [place, Nat.zero_add]
        rfl
      have htext : sep.intercalate ((item :: item' :: items).map Prod.fst) =
          item.1 ++ (sep ++ sep.intercalate ((item' :: items).map Prod.fst)) := rfl
      rw [hplace, htext]
      exact happend

end Bound

end Placeholders
