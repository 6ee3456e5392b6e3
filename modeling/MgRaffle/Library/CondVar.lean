import Mathlib.Tactic

namespace Waiting

/-- A condition variable: the calls that are blocked on it, and those that have been woken and
have yet to get the lock back, each with whether its time has run out. -/
structure CondVar (ω : Type*) where
  waiting : List ω
  woken : List (ω × Bool)
  deriving Repr, DecidableEq

namespace CondVar

variable {ω : Type*}

def new : CondVar ω := ⟨[], []⟩

/-- Gives up the lock and blocks. -/
def block (cv : CondVar ω) (w : ω) : CondVar ω := { cv with waiting := cv.waiting ++ [w] }

/-- Every call that has not come back from its wait. -/
def calls (cv : CondVar ω) : List ω := cv.waiting ++ cv.woken.map Prod.fst

variable [DecidableEq ω]

/-- A blocked call wakes up, notified, without a reason or as its time runs out. -/
def wake (cv : CondVar ω) (w : ω) (timedOut : Bool) : Option (CondVar ω) :=
  if w ∈ cv.waiting then some ⟨cv.waiting.erase w, (w, timedOut) :: cv.woken⟩ else none

/-- Wakes the chosen call; only where nobody waits there is none to choose. -/
def notifyOne (cv : CondVar ω) (chosen : Option ω) : Option (CondVar ω) :=
  match chosen with
  | none => if cv.waiting = [] then some cv else none
  | some w => cv.wake w false

/-- The time of a call that is awake already runs out before it gets the lock. -/
def expire (cv : CondVar ω) (w : ω) : Option (CondVar ω) :=
  if (w, false) ∈ cv.woken then some { cv with woken := (w, true) :: cv.woken.erase (w, false) }
  else none

/-- A woken call gets the lock back. -/
def resume (cv : CondVar ω) (w : ω) (timedOut : Bool) : Option (CondVar ω) :=
  if (w, timedOut) ∈ cv.woken then some { cv with woken := cv.woken.erase (w, timedOut) } else none

variable {cv cv' : CondVar ω} {w : ω} {b : Bool} {chosen : Option ω}

omit [DecidableEq ω] in
theorem calls_block (cv : CondVar ω) (w : ω) : (cv.block w).calls.Perm (w :: cv.calls) := by
  unfold calls block
  rw [List.append_assoc, List.singleton_append]
  exact List.perm_middle

theorem calls_wake (h : cv.wake w b = some cv') : cv'.calls.Perm cv.calls := by
  unfold wake at h
  split_ifs at h with hw
  rw [Option.some.injEq] at h
  rw [← h]
  unfold calls
  rw [List.map_cons]
  apply List.perm_middle.trans
  rw [← List.cons_append]
  exact (List.perm_cons_erase hw).symm.append_right _

theorem mem_woken_wake {x : ω × Bool} (h : cv.wake w b = some cv') (hx : x ∈ cv'.woken) :
    x = (w, b) ∨ x ∈ cv.woken := by
  unfold wake at h
  split_ifs at h
  rw [Option.some.injEq] at h
  rw [← h] at hx
  exact List.mem_cons.mp hx

theorem calls_notifyOne (h : cv.notifyOne chosen = some cv') : cv'.calls.Perm cv.calls := by
  cases chosen with
  | none =>
    unfold notifyOne at h
    split_ifs at h
    rw [Option.some.injEq] at h
    rw [h]
  | some w => exact calls_wake h

/-- Nobody's time runs out by a notification. -/
theorem mem_woken_notifyOne {x : ω × Bool} (h : cv.notifyOne chosen = some cv')
    (hx : x ∈ cv'.woken) : x.2 = false ∨ x ∈ cv.woken := by
  cases chosen with
  | none =>
    unfold notifyOne at h
    split_ifs at h
    rw [Option.some.injEq] at h
    rw [← h] at hx
    exact Or.inr hx
  | some w =>
    apply (mem_woken_wake h hx).imp_left
    intro heq
    rw [heq]

theorem calls_expire (h : cv.expire w = some cv') : cv'.calls.Perm cv.calls := by
  unfold expire at h
  split_ifs at h with hw
  rw [Option.some.injEq] at h
  rw [← h]
  unfold calls
  rw [List.map_cons]
  apply List.Perm.append_left
  exact ((List.perm_cons_erase hw).map Prod.fst).symm

theorem mem_woken_expire {x : ω × Bool} (h : cv.expire w = some cv') (hx : x ∈ cv'.woken) :
    x = (w, true) ∨ x ∈ cv.woken := by
  unfold expire at h
  split_ifs at h
  rw [Option.some.injEq] at h
  rw [← h] at hx
  exact (List.mem_cons.mp hx).imp_right List.mem_of_mem_erase

theorem calls_resume (h : cv.resume w b = some cv') : cv.calls.Perm (w :: cv'.calls) := by
  unfold resume at h
  split_ifs at h with hw
  rw [Option.some.injEq] at h
  rw [← h]
  unfold calls
  have hperm := ((List.perm_cons_erase hw).map Prod.fst).append_left cv.waiting
  rw [List.map_cons] at hperm
  exact hperm.trans List.perm_middle

theorem mem_woken_resume {x : ω × Bool} (h : cv.resume w b = some cv') (hx : x ∈ cv'.woken) :
    x ∈ cv.woken := by
  unfold resume at h
  split_ifs at h
  rw [Option.some.injEq] at h
  rw [← h] at hx
  exact List.mem_of_mem_erase hx

theorem woken_of_resume (h : cv.resume w b = some cv') : (w, b) ∈ cv.woken := by
  unfold resume at h
  split_ifs at h with hw
  exact hw

section Heeding

variable {m n : ℕ} {ws : List (ω × Bool)}

/-- With `n` things to be had, as many calls are awake to come for them, unless nobody is blocked. -/
def Heeded (cv : CondVar ω) (n : ℕ) : Prop := cv.waiting ≠ [] → n ≤ cv.woken.length

omit [DecidableEq ω] in
theorem heeded_zero : cv.Heeded 0 := fun _ => Nat.zero_le _

omit [DecidableEq ω] in
theorem Heeded.mono (h : cv.Heeded n) (hle : m ≤ n) : cv.Heeded m := fun hne => hle.trans (h hne)

theorem Heeded.wake (h : cv.Heeded n) (hwake : cv.wake w b = some cv') : cv'.Heeded (n + 1) := by
  unfold CondVar.wake at hwake
  split_ifs at hwake with hmem
  cases hwake
  intro _
  exact Nat.succ_le_succ (h (List.ne_nil_of_mem hmem))

/-- A notification heeds one thing more. -/
theorem Heeded.notifyOne (h : cv.Heeded n) (hnotify : cv.notifyOne chosen = some cv') :
    cv'.Heeded (n + 1) := by
  cases chosen with
  | none =>
    unfold CondVar.notifyOne at hnotify
    split_ifs at hnotify with hnil
    cases hnotify
    exact fun hne => absurd hnil hne
  | some w => exact h.wake hnotify

theorem Heeded.expire (h : cv.Heeded n) (hexpire : cv.expire w = some cv') : cv'.Heeded n := by
  unfold CondVar.expire at hexpire
  split_ifs at hexpire with hmem
  cases hexpire
  have hpos := List.length_pos_of_mem hmem
  intro hne
  rw [List.length_cons, List.length_erase_of_mem hmem]
  exact (h hne).trans (by omega)

/-- A call that gets the lock back comes for one of the things. -/
theorem Heeded.resume (h : cv.Heeded n) (hresume : cv.resume w b = some cv') :
    cv'.Heeded (n - 1) := by
  unfold CondVar.resume at hresume
  split_ifs at hresume with hmem
  cases hresume
  intro hne
  rw [List.length_erase_of_mem hmem]
  exact Nat.sub_le_sub_right (h hne) 1

omit [DecidableEq ω] in
/-- With nobody awake, nothing is left to come for or nobody is blocked. -/
theorem Heeded.settled (h : cv.Heeded n) (hwoken : cv.woken = []) : n = 0 ∨ cv.calls = [] := by
  by_cases hwait : cv.waiting = []
  · apply Or.inr
    rw [calls, hwait, hwoken]
    rfl
  · have hle := h hwait
    rw [hwoken] at hle
    exact Or.inl (Nat.le_zero.mp hle)

/-- Any call that is awake may be the next one that gets the lock. -/
theorem resume_of_perm (h : cv.woken.Perm ((w, b) :: ws)) :
    ∃ cv', cv.resume w b = some cv' ∧ cv'.woken.Perm ws ∧ cv'.waiting = cv.waiting := by
  have hmem : (w, b) ∈ cv.woken := h.symm.subset List.mem_cons_self
  refine ⟨_, if_pos hmem, ?_, rfl⟩
  have herase := h.erase (w, b)
  rwa [List.erase_cons_head] at herase

end Heeding

end CondVar

end Waiting
