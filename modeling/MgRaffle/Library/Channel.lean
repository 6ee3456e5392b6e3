import Mathlib.Tactic

/-- A buffered channel. -/
structure Channel (α : Type*) where
  capacity : ℕ
  items : List α
  closed : Bool
  bounded : items.length ≤ capacity

namespace Channel

variable {α : Type*}

def make (capacity : ℕ) : Channel α := ⟨capacity, [], false, Nat.zero_le _⟩

/-- `none` where the sender blocks, or panics at a closed channel. -/
def send (c : Channel α) (a : α) : Option (Channel α) :=
  if h : c.items.length < c.capacity ∧ c.closed = false then
    some { c with items := c.items ++ [a], bounded := by rw [List.length_append]; exact h.1 }
  else none

/-- `none` where the receiver blocks, or the channel is closed and used up. -/
def receive (c : Channel α) : Option (α × Channel α) :=
  c.items.head?.map fun a =>
    (a, { c with items := c.items.tail, bounded := (List.tail_sublist c.items).length_le.trans c.bounded })

variable {c d : Channel α} {a : α}

theorem send_eq_some (h : c.send a = some d) :
    d.items = c.items ++ [a] ∧ d.capacity = c.capacity ∧ d.closed = false := by
  unfold send at h
  split_ifs at h with hroom
  cases h
  exact ⟨rfl, rfl, hroom.2⟩

/-- On an open channel a sender blocks exactly when the buffer is full. -/
theorem send_eq_none_iff (hopen : c.closed = false) :
    c.send a = none ↔ c.items.length = c.capacity := by
  have := c.bounded
  unfold send
  split_ifs with hroom
  · simp only [false_iff]
    omega
  · rw [not_and] at hroom
    simp only [true_iff]
    have : ¬ c.items.length < c.capacity := fun hlt => hroom hlt hopen
    omega

theorem receive_eq_some (h : c.receive = some (a, d)) :
    c.items = a :: d.items ∧ d.capacity = c.capacity ∧ d.closed = c.closed := by
  obtain ⟨b, hb, hd⟩ := Option.map_eq_some_iff.mp h
  cases hd
  exact ⟨List.eq_cons_of_mem_head? hb, rfl, rfl⟩

end Channel
