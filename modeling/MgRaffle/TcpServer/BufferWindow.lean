import MgRaffle.TcpServer.BufferPool

open Stepping

namespace MgRaffle.TcpServer

inductive BufferCall
  | usage (len : ℤ)
  | reset
  deriving Repr, DecidableEq

namespace SBuffer

/-- `none` where the assertion fails, and for a negative length. -/
def step (b : SBuffer) : BufferCall → Option SBuffer
  | .usage len => if 0 ≤ len ∧ len ≤ b.remainSize then some (b.usage len) else none
  | .reset => some b.reset

/-- The bytes from `get_buf()` on, `get_remain_size()` of them, are in the storage, and the sizes add
up to what was asked for at least. -/
structure Backed (allocateSize : ℤ) (b : SBuffer) : Prop where
  window : 0 ≤ b.usageSize ∧ b.usageSize + b.remainSize ≤ storageSize
  sum : b.usageSize + b.remainSize = b.realSize
  enough : allocateSize ≤ b.realSize

/-- The cursors stay within the size of the class. -/
structure Balanced (allocateSize : ℤ) (b : SBuffer) : Prop where
  real : b.realSize = mallocSize allocateSize
  used : 0 ≤ b.usageSize
  sum : b.usageSize + b.remainSize = b.realSize

variable {allocateSize : ℤ} {b t : SBuffer} {c : BufferCall}

theorem balanced_new (allocateSize : ℤ) : (new allocateSize true).Balanced allocateSize :=
  ⟨rfl, le_rfl, zero_add _⟩

theorem balanced_step (h : b.Balanced allocateSize) (hstep : b.step c = some t) :
    t.Balanced allocateSize := by
  obtain ⟨hreal, hused, hsum⟩ := h
  cases c with
  | usage len =>
    rw [step, Option.ite_none_right_eq_some, Option.some.injEq] at hstep
    obtain ⟨⟨hlen, -⟩, rfl⟩ := hstep
    refine ⟨hreal, ?_, ?_⟩
    · dsimp only [usage]
      omega
    · dsimp only [usage]
      omega
  | reset =>
    rw [step, Option.some.injEq] at hstep
    subst hstep
    exact ⟨hreal, le_rfl, zero_add _⟩

theorem le_mallocSize (h : allocateSize ≤ 4096) : allocateSize ≤ mallocSize allocateSize := by
  unfold mallocSize
  split_ifs <;> omega

/-- The classes up to 512 bytes fit the storage, and the others do not. -/
theorem mallocSize_le_storageSize (h : allocateSize ≤ 4096) :
    mallocSize allocateSize ≤ storageSize ↔ allocateSize ≤ 512 := by
  unfold mallocSize storageSize
  split_ifs <;> omega

theorem backed_iff (hle : allocateSize ≤ 4096) (h : b.Balanced allocateSize) :
    b.Backed allocateSize ↔ allocateSize ≤ 512 := by
  rw [← mallocSize_le_storageSize hle, ← h.real, ← h.sum]
  constructor
  · intro hbacked
    exact hbacked.window.2
  · intro hfits
    refine ⟨⟨h.used, hfits⟩, h.sum, ?_⟩
    rw [h.real]
    exact le_mallocSize hle

/-- Whatever is done with a buffer, its window is in its storage exactly if it was asked for 512
bytes at most. -/
theorem window_backed_iff (allocateSize : ℤ) (hle : 0 ≤ allocateSize ∧ allocateSize ≤ 4096)
    (calls : List BufferCall) :
    Throughout step (Backed allocateSize) (new allocateSize true) calls ↔ allocateSize ≤ 512 := by
  constructor
  · intro h
    exact (backed_iff hle.2 (balanced_new allocateSize)).mp h.head
  · intro hsmall
    apply throughout_of_invariant (Balanced allocateSize)
    · intro b c t hb hstep
      exact balanced_step hb hstep
    · intro b hb
      exact (backed_iff hle.2 hb).mpr hsmall
    · exact balanced_new allocateSize

/-- A buffer for 100 bytes. -/
theorem window_backed_small : Throughout step (Backed 100) (new 100 true)
    [.usage 128, .reset, .usage 5] ↔ (100 : ℤ) ≤ 512 :=
  window_backed_iff 100 (by decide) _

/-- A buffer for 2048 bytes has only 1000. -/
theorem window_past_storage : ¬ ∀ (allocateSize : ℤ), 0 ≤ allocateSize ∧ allocateSize ≤ 4096 →
    ∀ calls, Throughout step (Backed allocateSize) (new allocateSize true) calls := by
  intro h
  have hwindow := (h 2048 (by decide) []).window.2
  revert hwindow
  decide

end SBuffer

end MgRaffle.TcpServer
