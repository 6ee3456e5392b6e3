import Mathlib.Tactic

namespace EdgeTriggered

/-- A queue whose arrivals raise an edge, which stands for all of them until it is reported. -/
structure Source where
  queue : ℕ
  edge : Bool
  deriving Repr, DecidableEq

namespace Source

def arrive (s : Source) : Source := ⟨s.queue + 1, true⟩

def report (s : Source) : Source := { s with edge := false }

/-- One element is taken from the queue. -/
def take (s : Source) : Source := { s with queue := s.queue - 1 }

/-- Unless a report is still to be looked at, what is in the queue has an edge to be reported. -/
def Settled (s : Source) (noticed : Prop) : Prop := ¬ noticed → s.edge = false → s.queue = 0

/-- The next look at the queue leaves nothing behind that has no edge. -/
def OneLeft (s : Source) : Prop := s.edge = true ∨ s.queue ≤ 1

instance (s : Source) : Decidable s.OneLeft := by
  unfold OneLeft
  infer_instance

variable {s : Source} {p q : Prop}

theorem settled_arrive : s.arrive.Settled p := by
  intro _ hedge
  cases hedge

theorem settled_of_noticed (hp : p) : s.Settled p := fun hn => absurd hp hn

theorem Settled.mono (h : s.Settled p) (hpq : p → q) : s.Settled q :=
  fun hn hedge => h (fun hp => hn (hpq hp)) hedge

theorem OneLeft.settled_take (h : s.OneLeft) : s.take.Settled p := by
  intro _ hedge
  rcases h with h | h
  · rw [take, h] at hedge
    cases hedge
  · exact Nat.sub_eq_zero_of_le h

end Source

end EdgeTriggered
