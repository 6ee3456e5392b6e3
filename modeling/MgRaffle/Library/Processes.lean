import Mathlib.Tactic

namespace Processes

variable {α β : Type*}

/-- What a child was started for, and how it ended if it has. -/
structure Child (α β : Type*) where
  work : α
  fate : Option β
  deriving Repr, DecidableEq

/-- The children that a process has not waited for, by their numbers. -/
abbrev Table (α β : Type*) := ℕ → Option (Child α β)

namespace Table

/-- `fork` returns `pid`, which no child has that was not waited for. -/
def fork (t : Table α β) (pid : ℕ) (work : α) : Option (Table α β) :=
  if 0 < pid ∧ (t pid).isNone then some (Function.update t pid (some ⟨work, none⟩)) else none

/-- A child comes to its end. -/
def exit (t : Table α β) (pid : ℕ) (fate : β) : Option (Table α β) :=
  match t pid with
  | some ⟨work, none⟩ => some (Function.update t pid (some ⟨work, some fate⟩))
  | _ => none

/-- `waitpid` for a child that has ended. -/
def reap (t : Table α β) (pid : ℕ) : Option (Table α β) :=
  match t pid with
  | some ⟨_, some _⟩ => some (Function.update t pid none)
  | _ => none

variable {t u : Table α β} {pid : ℕ} {work : α} {fate : β}

theorem fork_eq_some : t.fork pid work = some u ↔
    0 < pid ∧ t pid = none ∧ u = Function.update t pid (some ⟨work, none⟩) := by
  unfold fork
  split_ifs with h
  · simp only [Option.isNone_iff_eq_none] at h
    simp only [Option.some.injEq, h, true_and, eq_comm]
  · constructor
    · intro hu
      cases hu
    · rintro ⟨hpos, hnone, -⟩
      exact absurd ⟨hpos, Option.isNone_iff_eq_none.mpr hnone⟩ h

theorem exit_eq_some : t.exit pid fate = some u ↔
    ∃ work, t pid = some ⟨work, none⟩ ∧ u = Function.update t pid (some ⟨work, some fate⟩) := by
  unfold exit
  split
  · rename_i work hpid
    simp [hpid, eq_comm]
  · rename_i hnot
    simp only [reduceCtorEq, false_iff]
    rintro ⟨work, hpid, -⟩
    exact hnot work hpid

theorem reap_eq_some : t.reap pid = some u ↔
    (∃ work fate, t pid = some ⟨work, some fate⟩) ∧ u = Function.update t pid none := by
  unfold reap
  split
  · rename_i work fate hpid
    simp [hpid, eq_comm]
  · rename_i hnot
    simp only [reduceCtorEq, false_iff]
    rintro ⟨⟨work, fate, hpid⟩, -⟩
    exact hnot work fate hpid

/-- The parent's notes say which children there are, and what each was started for. -/
def Tracked (t : Table α β) (notes : α → ℕ → Prop) : Prop :=
  ∀ work pid, notes work pid ↔ ∃ fate, t pid = some ⟨work, fate⟩

variable {notes : α → ℕ → Prop}

theorem tracked_nobody (h : ∀ work pid, ¬ notes work pid) :
    Tracked (fun _ => none : Table α β) notes := by
  intro work pid
  simp [h work pid]

theorem Tracked.congr {notes' : α → ℕ → Prop} (h : t.Tracked notes)
    (hnotes : ∀ work pid, notes' work pid ↔ notes work pid) : t.Tracked notes' :=
  fun work pid => (hnotes work pid).trans (h work pid)

/-- Nobody else has the number of a child. -/
theorem Tracked.unique (h : t.Tracked notes) {work' : α} (hn : notes work pid)
    (hn' : notes work' pid) : work = work' := by
  obtain ⟨fate, hpid⟩ := (h work pid).mp hn
  obtain ⟨fate', hpid'⟩ := (h work' pid).mp hn'
  rw [hpid, Option.some.injEq, Child.mk.injEq] at hpid'
  exact hpid'.1

theorem Tracked.fork (h : t.Tracked notes) (ht : t.fork pid work = some u) :
    u.Tracked fun work' pid' => notes work' pid' ∨ work' = work ∧ pid' = pid := by
  obtain ⟨-, hnone, rfl⟩ := fork_eq_some.mp ht
  intro work' pid'
  show notes work' pid' ∨ _ ↔ _
  rw [h work' pid']
  by_cases hpid : pid' = pid
  · rw [hpid, Function.update_self, hnone]
    simp [eq_comm]
  · rw [Function.update_of_ne hpid]
    simp [hpid]

theorem Tracked.exit (h : t.Tracked notes) (ht : t.exit pid fate = some u) : u.Tracked notes := by
  obtain ⟨work, hpid, rfl⟩ := exit_eq_some.mp ht
  intro work' pid'
  rw [h work' pid']
  by_cases heq : pid' = pid
  · rw [heq, Function.update_self, hpid]
    simp
  · rw [Function.update_of_ne heq]

theorem Tracked.reap (h : t.Tracked notes) (ht : t.reap pid = some u) :
    u.Tracked fun work' pid' => notes work' pid' ∧ pid' ≠ pid := by
  obtain ⟨-, rfl⟩ := reap_eq_some.mp ht
  intro work' pid'
  show notes work' pid' ∧ _ ↔ _
  rw [h work' pid']
  by_cases hpid : pid' = pid
  · rw [hpid, Function.update_self]
    simp
  · rw [Function.update_of_ne hpid]
    simp [hpid]

end Table

end Processes
