import MgRaffle.Core.PoolMemory
import MgRaffle.Library.Stepping

open Stepping

namespace MgRaffle.Core

namespace PoolState

open PoolMemory

variable {pool : ℕ} {s t : PoolState} {c : PoolCall}

/-- A call takes only blocks of the pool for blocks, and `_current` is the head or one of them. -/
def OnlyBlocks (pool : ℕ) (s : PoolState) (c : PoolCall) : Prop :=
  ∃ o, s.palloc pool c = some o ∧ (∀ p ∈ o.converted, p ∈ s.pages ∧ p ≠ smallOf pool) ∧
    o.memory.current ∈ smallOf pool :: s.pages

/-- A small request gets a page only while the pool has none. -/
def FirstPage (s : PoolState) (c : PoolCall) : Prop :=
  c.size ≤ s.memory.max → (c.malloc MG_PAGESIZE).isSome → s.pages = []

/-- While `_current` is the head of the list, the call is right exactly if the `for` loop finds no
block in the list. -/
theorem onlyBlocks_iff (h : s.Linked pool) (hcur : s.memory.current = smallOf pool) :
    s.OnlyBlocks pool c ↔ s.FirstPage c := by
  have hhead : smallOf pool ∉ s.pages := (List.nodup_cons.mp h.small_nodup).1
  obtain ⟨hsearched, hwalked⟩ : s.searched = [] ∧ s.walked pool = smallOf pool :: s.pages := by
    rcases h.current_cases with ⟨-, hnil, hwalk⟩ | ⟨pre, post, hpages, -, -⟩
    · exact ⟨hnil, hwalk⟩
    · rw [hcur] at hpages
      exact absurd (hpages ▸ List.mem_append_right _ (List.mem_cons_self ..)) hhead
  by_cases hsize : c.size ≤ s.memory.max
  · unfold OnlyBlocks FirstPage
    rw [palloc_small hsize]
    rcases mgPallocSmall_cases h c with ⟨l₁, b, l₂, hl, -⟩ | ⟨-, hm, heq⟩ |
      ⟨-, a, hm, cur, f, hcount, -, heq⟩
    · rw [hsearched] at hl
      simp at hl
    · rw [heq, hm, hsearched]
      exact iff_of_true ⟨_, rfl, by simp, h.current⟩ (fun _ hsome => nomatch hsome)
    · rw [heq, hm, hsearched, List.nil_append]
      constructor
      · intro hgood _ _
        obtain ⟨o, ho, hblocks, -⟩ := hgood
        rw [Option.some.injEq] at ho
        subst ho
        cases hpages : s.pages with
        | nil => rfl
        | cons b rest =>
          -- the first node that the loop takes for a block is the head
          rw [hwalked, hpages, List.dropLast_cons_cons] at hblocks
          exact absurd rfl (hblocks _ (List.mem_cons_self ..)).2
      · intro hfirst
        have hpages := hfirst hsize rfl
        rw [hwalked, hpages]
        have hmem := h.counted_current hcount
        rw [hpages] at hmem
        exact ⟨_, rfl, (fun p hp => nomatch hp), hmem⟩
  · unfold OnlyBlocks FirstPage
    rw [palloc_large hsize]
    obtain ⟨hnone, hsame⟩ := s.memory.mgPallocLarge_frame pool c.size c.malloc
    refine iff_of_true ⟨_, rfl, ?_, ?_⟩ (fun h => absurd h hsize)
    · rw [hnone]
      exact fun p hp => nomatch hp
    · rw [hsame]
      exact h.current

/-- A first page leaves `_current` at the head of the list. -/
theorem current_step (h : s.Linked pool) (hcur : s.memory.current = smallOf pool)
    (hfirst : s.FirstPage c) (ht : step pool s c = some t) :
    t.memory.current = smallOf pool := by
  obtain ⟨r, -, hturn⟩ := turn_of_step h ht
  cases hturn with
  | gave hsize hl hl₁ hroom => exact hcur
  | refused hsize hnone hm => exact hcur
  | paged hsize hnone hm hzero hnew hcount hf =>
    have hpages := hfirst hsize (by rw [hm]; rfl)
    have hmem := h.counted_current hcount
    rw [hpages, List.mem_singleton] at hmem
    exact hmem
  | refusedLarge hsize hm => exact hcur
  | enlarged hsize hm hnew =>
    exact (s.memory.mgPallocLarge_frame pool c.size c.malloc).2.trans hcur

/-- In every run from a new pool, the list's head is taken for no block exactly as long as the pool
gets no second page. -/
theorem palloc_onlyBlocks_iff (m : PoolMemory) (pool size : ℕ) (calls : List PoolCall) :
    EachCall (step pool) (OnlyBlocks pool) (start m pool size) calls ↔
      EachCall (step pool) FirstPage (start m pool size) calls := by
  apply eachCall_iff fun s => s.Linked pool ∧ s.memory.current = smallOf pool
  · intro s c t hs hfirst ht
    exact ⟨linked_step hs.1 ht, current_step hs.1 hs.2 hfirst ht⟩
  · intro s c hs
    exact onlyBlocks_iff hs.1 hs.2
  · exact ⟨linked_start m pool size, rfl⟩

/-- The second page of a pool is got by way of the list's head. -/
theorem head_taken_for_block : ¬ ∀ (m : PoolMemory) (pool size : ℕ) (calls : List PoolCall),
    EachCall (step pool) (OnlyBlocks pool) (start m pool size) calls := by
  intro h
  have hrun := h ⟨0, 0, ⟨id, id⟩, id, id, id, id, fun _ => 0⟩ 1000 100
    [⟨60, fun _ => some 4096⟩, ⟨60, fun _ => some 8192⟩]
  obtain ⟨o, ho, hblocks, -⟩ := (hrun.2 _ rfl).1
  cases ho
  exact absurd rfl (hblocks 1032 (by decide)).2

/-- A request for which the newest block has room is met by a block of the pool, without a call of
`malloc`. -/
def Reuses (pool : ℕ) (s : PoolState) (c : PoolCall) : Prop :=
  c.size ≤ s.memory.max → ∀ newest ∈ s.pages.head?, (s.memory.smallBlock newest).room ≥ c.size →
    ∃ o a, s.palloc pool c = some o ∧ o.obtained = none ∧ o.result = some a ∧
      ∃ b ∈ s.pages, b + sizeofSmallBlock ≤ a ∧ a + c.size ≤ b + MG_PAGESIZE

/-- The blocks from `_current` on, without the newest one. -/
def olderSearched (s : PoolState) : List ℕ := s.pages.tail.dropWhile (· ≠ s.memory.current)

/-- Where the newest block has room, so has an older one that the search comes to. -/
def OlderRoom (s : PoolState) (c : PoolCall) : Prop :=
  c.size ≤ s.memory.max → ∀ newest ∈ s.pages.head?, (s.memory.smallBlock newest).room ≥ c.size →
    ∃ b ∈ s.olderSearched, (s.memory.smallBlock b).room ≥ c.size

/-- `_current` never is the newest block, which stands before all others. -/
def Behind (s : PoolState) : Prop := ∀ newest ∈ s.pages.head?, newest ≠ s.memory.current

theorem Behind.searched_eq (hb : s.Behind) : s.searched = s.olderSearched := by
  unfold searched olderSearched
  cases hpages : s.pages with
  | nil => rfl
  | cons b rest =>
    have hne : b ≠ s.memory.current := hb b (by rw [hpages]; rfl)
    exact List.dropWhile_cons_of_pos (decide_eq_true hne)

theorem behind_step (h : s.Linked pool) (hb : s.Behind) (ht : step pool s c = some t) :
    t.Behind := by
  obtain ⟨r, -, hturn⟩ := turn_of_step h ht
  cases hturn with
  | gave hsize hl hl₁ hroom => exact hb
  | refused hsize hnone hm => exact hb
  | @paged a cur f hsize hnone hm hzero hnew hcount hf =>
    intro newest hnewest
    have heq : newest = a := (Option.mem_some_iff.mp hnewest).symm
    subst heq
    rintro rfl
    exact not_mem_small hnew (h.counted_current hcount)
  | refusedLarge hsize hm => exact hb
  | enlarged hsize hm hnew =>
    rw [Behind, (s.memory.mgPallocLarge_frame pool c.size c.malloc).2]
    exact hb

theorem reuses_iff (h : s.Linked pool) (hb : s.Behind) : s.Reuses pool c ↔ s.OlderRoom c := by
  unfold Reuses OlderRoom
  rw [← hb.searched_eq]
  refine forall_congr' fun hsize => forall_congr' fun newest => forall_congr' fun hnewest =>
    forall_congr' fun hroom => ?_
  rw [palloc_small hsize]
  rcases mgPallocSmall_cases h c with ⟨l₁, b, l₂, hl, -, hbroom, heq⟩ | ⟨hnone, -, heq⟩ |
    ⟨hnone, a, -, cur, f, -, -, heq⟩
  · have hmem : b ∈ s.searched := hl ▸ List.mem_append_right _ (List.mem_cons_self ..)
    have hpage := mem_searched hmem
    refine iff_of_true ⟨_, _, heq, rfl, rfl, b, hpage, (h.last b hpage).1, ?_⟩ ⟨b, hmem, hbroom⟩
    rw [h.room_eq hpage, h.endPtr b hpage] at hbroom
    have hlast := h.last b hpage
    rw [h.endPtr b hpage] at hlast
    omega
  · refine iff_of_false ?_ ?_
    · rintro ⟨o, a, ho, -, hresult, -⟩
      rw [heq, Option.some.injEq] at ho
      subst ho
      cases hresult
    · rintro ⟨b, hb, hbroom⟩
      exact hnone b hb hbroom
  · refine iff_of_false ?_ ?_
    · rintro ⟨o, a, ho, hobtained, -⟩
      rw [heq, Option.some.injEq] at ho
      subst ho
      cases hobtained
    · rintro ⟨b, hb, hbroom⟩
      exact hnone b hb hbroom

/-- In every run from a new pool, the room of the newest block is of use exactly as long as an older
block from `_current` on has room as well. -/
theorem palloc_reuses_iff (m : PoolMemory) (pool size : ℕ) (calls : List PoolCall) :
    EachCall (step pool) (Reuses pool) (start m pool size) calls ↔
      EachCall (step pool) OlderRoom (start m pool size) calls := by
  apply eachCall_iff fun s => s.Linked pool ∧ s.Behind
  · intro s c t hs _ ht
    exact ⟨linked_step hs.1 ht, behind_step hs.1 hs.2 ht⟩
  · intro s c hs
    exact reuses_iff hs.1 hs.2
  · exact ⟨linked_start m pool size, fun newest hnewest => nomatch hnewest⟩

/-- The second request of ten bytes gets a page of its own. -/
theorem page_not_reused : ¬ ∀ (m : PoolMemory) (pool size : ℕ) (calls : List PoolCall),
    EachCall (step pool) (Reuses pool) (start m pool size) calls := by
  intro h
  have hrun := h ⟨0, 0, ⟨id, id⟩, id, id, id, id, fun _ => 0⟩ 1000 100
    [⟨10, fun _ => some 4096⟩, ⟨10, fun _ => some 8192⟩]
  obtain ⟨o, a, ho, hobtained, -⟩ := (hrun.2 _ rfl).1 (by decide) 4096 rfl (by decide)
  cases ho
  cases hobtained

end PoolState

end MgRaffle.Core
