import MgRaffle.Core.PoolMemory

open Stepping

namespace MgRaffle.Core

/-- A search passes the blocks without room. -/
theorem takeSpace_none {size : ℕ} {l : List MgSmallBlock} (hl : ∀ s ∈ l, ¬ s.room ≥ size) :
    takeSpace size l = none := by
  induction l with
  | nil => rfl
  | cons s rest ih =>
    rw [takeSpace, if_neg (hl s (List.mem_cons_self ..)),
      ih fun x hx => hl x (List.mem_cons_of_mem _ hx), Option.map_none]

theorem takeSpace_append {size : ℕ} {l₁ l₂ : List MgSmallBlock} {s : MgSmallBlock}
    (hl₁ : ∀ x ∈ l₁, ¬ x.room ≥ size) (hs : s.room ≥ size) :
    takeSpace size (l₁ ++ s :: l₂) =
      some (s.last, l₁ ++ { s with last := s.last + size } :: l₂) := by
  induction l₁ with
  | nil =>
    rw [List.nil_append, takeSpace, if_pos hs]
    rfl
  | cons x rest ih =>
    rw [List.cons_append, takeSpace, if_neg (hl₁ x (List.mem_cons_self ..)),
      ih fun y hy => hl₁ y (List.mem_cons_of_mem _ hy), Option.map_some]
    rfl

namespace PoolState

open PoolMemory

/-- The lists of blocks that the memory holds. -/
def toPool (pool : ℕ) (s : PoolState) : MgPool :=
  { addr := pool
    max := s.memory.max
    current := s.memory.current
    large := s.larges.map s.memory.largeBlock
    small := s.pages.map s.memory.smallBlock }

variable {pool : ℕ} {s t : PoolState} {c : PoolCall}

theorem ahead_toPool : (s.toPool pool).ahead = s.searched.map s.memory.smallBlock := by
  unfold MgPool.ahead toPool searched
  rw [List.dropWhile_map]
  rfl

theorem passed_toPool : (s.toPool pool).passed =
    (s.pages.takeWhile (· ≠ s.memory.current)).map s.memory.smallBlock := by
  unfold MgPool.passed toPool
  rw [List.takeWhile_map]
  rfl

/-- The search on the lists finds no room where there is none from `_current` on. -/
theorem search_toPool_none (hnone : ∀ x ∈ s.searched, ¬ (s.memory.smallBlock x).room ≥ c.size) :
    (s.toPool pool).search c.size = none := by
  unfold MgPool.search
  split_ifs with hcur
  · rfl
  · rw [ahead_toPool, takeSpace_none, Option.map_none]
    intro x hx
    obtain ⟨b, hb, rfl⟩ := List.mem_map.mp hx
    exact hnone b hb

theorem give_smallBlock_of_ne (m : PoolMemory) {x b : ℕ} (size : ℕ) (hne : x ≠ b) :
    (m.give b size).smallBlock x = m.smallBlock x := by
  simp only [smallBlock, give, Function.update_of_ne hne]

theorem give_smallBlock_self (m : PoolMemory) (b size : ℕ) : (m.give b size).smallBlock b =
    { m.smallBlock b with last := (m.smallBlock b).last + size } := by
  simp only [smallBlock, give, Function.update_self]

theorem search_toPool_some (h : s.Linked pool) {l₁ l₂ : List ℕ} {b : ℕ}
    (hl : s.searched = l₁ ++ b :: l₂) (hl₁ : ∀ x ∈ l₁, ¬ (s.memory.smallBlock x).room ≥ c.size)
    (hroom : (s.memory.smallBlock b).room ≥ c.size) :
    (s.toPool pool).search c.size = some (s.memory.last b,
      toPool pool ⟨s.memory.give b c.size, s.pages, s.larges⟩) := by
  have hcur : s.memory.current ≠ smallOf pool := by
    rcases h.current_cases with ⟨-, hnil, -⟩ | ⟨pre, post, hpages, -, -⟩
    · rw [hl] at hnil
      simp at hnil
    · intro heq
      apply (List.nodup_cons.mp h.small_nodup).1
      rw [hpages, heq]
      exact List.mem_append_right _ (List.mem_cons_self ..)
  have htake : takeSpace c.size ((s.toPool pool).ahead) = some (s.memory.last b,
      l₁.map s.memory.smallBlock ++ (s.memory.give b c.size).smallBlock b ::
        l₂.map s.memory.smallBlock) := by
    rw [ahead_toPool, hl, List.map_append, List.map_cons, give_smallBlock_self]
    apply takeSpace_append _ hroom
    intro x hx
    obtain ⟨y, hy, rfl⟩ := List.mem_map.mp hx
    exact hl₁ y hy
  -- no other block of the list is the one that gives its bytes
  have hpages : s.pages = s.pages.takeWhile (· ≠ s.memory.current) ++ (l₁ ++ b :: l₂) := by
    rw [← hl]
    exact List.takeWhile_append_dropWhile.symm
  have hnodup := (List.nodup_cons.mp h.small_nodup).2
  rw [hpages, ← List.append_assoc, List.nodup_middle, List.nodup_cons] at hnodup
  have hother : ∀ l : List ℕ, b ∉ l →
      l.map (s.memory.give b c.size).smallBlock = l.map s.memory.smallBlock := by
    intro l hb
    apply List.map_congr_left
    intro x hx
    exact give_smallBlock_of_ne _ _ fun heq => hb (heq ▸ hx)
  simp only [List.mem_append, not_or] at hnodup
  obtain ⟨⟨⟨hpre, hb₁⟩, hb₂⟩, -⟩ := hnodup
  have hsmall : s.pages.map (s.memory.give b c.size).smallBlock = (s.toPool pool).passed ++
      (l₁.map s.memory.smallBlock ++ (s.memory.give b c.size).smallBlock b ::
        l₂.map s.memory.smallBlock) := by
    rw [passed_toPool]
    conv_lhs => rw [hpages]
    rw [List.map_append, List.map_append, List.map_cons, hother _ hpre, hother _ hb₁,
      hother _ hb₂]
  have hhead : (s.toPool pool).current ≠ (s.toPool pool).smallHead := hcur
  rw [MgPool.search, if_neg hhead, htake, Option.map_some]
  dsimp only
  rw [← hsmall]
  rfl

/-- Where `_current` is the head, the loop over the lists gets what the head reads as. -/
theorem countAhead_head (hcur : s.memory.current = smallOf pool) {m : PoolMemory} {cur : ℕ}
    (hcount : (cur, (smallOf pool :: s.pages).map m.smallBlock) =
      MgPool.countFailed s.memory.current
        ((smallOf pool :: s.pages).map s.memory.smallBlock)) :
    (s.toPool pool).countAhead (s.memory.failed (smallOf pool)) =
      { s.toPool pool with current := cur, small := s.pages.map m.smallBlock } := by
  have hhead : (s.toPool pool).current = (s.toPool pool).smallHead := hcur
  rw [MgPool.countAhead, if_pos hhead]
  cases hp : s.pages with
  | nil =>
    rw [hp] at hcount
    have hcur' : cur = s.memory.current := congrArg Prod.fst hcount
    simp only [toPool, hp, List.map_nil, hcur']
  | cons first rest =>
    have hsmall : (s.toPool pool).small =
        s.memory.smallBlock first :: rest.map s.memory.smallBlock := by
      rw [toPool, hp, List.map_cons]
    rw [hp] at hcount
    simp only [List.map_cons] at hcount
    have hturn : MgPool.countFailed s.memory.current (s.memory.smallBlock (smallOf pool) ::
          s.memory.smallBlock first :: rest.map s.memory.smallBlock) =
        (fun r => (r.1, { s.memory.smallBlock (smallOf pool) with
          failed := s.memory.failed (smallOf pool) + 1 } :: r.2))
        (MgPool.countFailed (if s.memory.failed (smallOf pool) > 4 then first
          else s.memory.current) (s.memory.smallBlock first :: rest.map s.memory.smallBlock)) := rfl
    rw [hturn, Prod.mk.injEq, List.cons.injEq] at hcount
    obtain ⟨hc, -, hl⟩ := hcount
    rw [hsmall, List.map_cons, hl, hc]
    rfl

/-- Where `_current` is a block, the blocks before it are not counted in. -/
theorem countAhead_block (h : s.Linked pool) (hcur : s.memory.current ∈ s.pages) {m : PoolMemory}
    {cur : ℕ} (hcount : (cur, s.searched.map m.smallBlock) =
      MgPool.countFailed s.memory.current (s.searched.map s.memory.smallBlock))
    (hm : ∀ x ∈ s.pages, x ∉ s.searched → m.smallBlock x = s.memory.smallBlock x) :
    (s.toPool pool).countAhead (s.memory.failed (smallOf pool)) =
      { s.toPool pool with current := cur, small := s.pages.map m.smallBlock } := by
  obtain ⟨hout, hnodup⟩ := List.nodup_cons.mp h.small_nodup
  have hhead : (s.toPool pool).current ≠ (s.toPool pool).smallHead := by
    intro heq
    have hsame : s.memory.current = smallOf pool := heq
    exact hout (hsame ▸ hcur)
  have hcount' : MgPool.countFailed (s.toPool pool).current (s.searched.map s.memory.smallBlock) =
      (cur, s.searched.map m.smallBlock) := hcount.symm
  have hsplit : s.pages.takeWhile (· ≠ s.memory.current) ++ s.searched = s.pages :=
    List.takeWhile_append_dropWhile
  rw [← hsplit] at hnodup
  have hpassed : (s.toPool pool).passed =
      (s.pages.takeWhile (· ≠ s.memory.current)).map m.smallBlock := by
    rw [passed_toPool]
    apply List.map_congr_left
    intro x hx
    have hpage : x ∈ s.pages := hsplit ▸ List.mem_append_left _ hx
    exact (hm x hpage fun hmem => (List.nodup_append.mp hnodup).2.2 x hx x hmem rfl).symm
  rw [MgPool.countAhead, if_neg hhead, ahead_toPool, hcount']
  dsimp only
  rw [hpassed, ← List.map_append, hsplit]

/-- The `for` loop over the nodes counts in the blocks of the list what the loop over the lists
counts. -/
theorem countAhead_toPool (h : s.Linked pool) {m : PoolMemory} {cur : ℕ} {f : ℕ → ℤ}
    (hm : ∀ x ∈ smallOf pool :: s.pages, m.smallBlock x = s.memory.smallBlock x)
    (hcount : (cur, (s.walked pool).map { m with failed := f }.smallBlock) =
      MgPool.countFailed s.memory.current ((s.walked pool).map m.smallBlock))
    (hf : ∀ b, b ∉ (s.walked pool).dropLast → f b = m.failed b) :
    (s.toPool pool).countAhead (s.memory.failed (smallOf pool)) =
      { s.toPool pool with
        current := cur
        small := s.pages.map { m with failed := f }.smallBlock } := by
  have hwalked : (s.walked pool).map m.smallBlock = (s.walked pool).map s.memory.smallBlock := by
    apply List.map_congr_left
    intro x hx
    exact hm x ((List.dropWhile_sublist _).subset hx)
  rw [hwalked] at hcount
  rcases h.current_cases with ⟨hcur, -, hwalk⟩ | ⟨pre, post, hpages, hpost, hwalk⟩
  · rw [hwalk] at hcount
    exact countAhead_head hcur hcount
  · have hpage : s.memory.current ∈ s.pages :=
      hpages ▸ List.mem_append_right _ (List.mem_cons_self ..)
    rw [← hpost] at hwalk
    rw [hwalk] at hcount hf
    apply countAhead_block h hpage hcount
    intro x hx hout
    rw [← hm x (List.mem_cons_of_mem _ hx)]
    simp only [smallBlock, hf x fun hmem => hout (List.mem_of_mem_dropLast hmem)]

/-- The lists of a pool with a new page. -/
theorem toPool_paged (h : s.Linked pool) {a cur : ℕ} {f : ℕ → ℤ} (hnew : a ∉ s.nodes pool)
    (hcount : (cur, (s.walked pool).map
        { s.memory.newBlock a c.size with failed := f }.smallBlock) =
      MgPool.countFailed s.memory.current
        ((s.walked pool).map (s.memory.newBlock a c.size).smallBlock))
    (hf : ∀ b, b ∉ (s.walked pool).dropLast → f b = (s.memory.newBlock a c.size).failed b) :
    toPool pool ⟨paged s.memory pool a c.size cur f, a :: s.pages, s.larges⟩ =
      { (s.toPool pool).countAhead (s.memory.failed (smallOf pool)) with
        small := ⟨a, a + sizeofSmallBlock + c.size, a + MG_PAGESIZE - 1, 0⟩ ::
          ((s.toPool pool).countAhead (s.memory.failed (smallOf pool))).small } := by
  have hout := not_mem_small hnew
  have hkept : ∀ x ∈ smallOf pool :: s.pages,
      (s.memory.newBlock a c.size).smallBlock x = s.memory.smallBlock x := by
    intro x hx
    have hne : x ≠ a := fun heq => hout (heq ▸ hx)
    simp only [smallBlock, newBlock, Function.update_of_ne hne]
  have hzero : f a = 0 := by
    rw [hf a fun hmem => hout ((List.dropWhile_sublist _).subset (List.mem_of_mem_dropLast hmem))]
    exact Function.update_self ..
  have hblock : { s.memory.newBlock a c.size with failed := f }.smallBlock a =
      ⟨a, a + sizeofSmallBlock + c.size, a + MG_PAGESIZE - 1, 0⟩ := by
    simp only [smallBlock, newBlock, Function.update_self, hzero]
  rw [countAhead_toPool h hkept hcount hf, ← hblock, ← List.map_cons]
  rfl

/-- The lists of a pool with a new large block. -/
theorem toPool_enlarged {a : ℕ} (hm : c.malloc (largeRequest c.size) = some a)
    (hnew : a ∉ s.nodes pool) :
    toPool pool ⟨(s.memory.mgPallocLarge pool c.size c.malloc).memory, s.pages, a :: s.larges⟩ =
      { s.toPool pool with
        large := ⟨a, a + sizeofLargeBlock⟩ :: (s.toPool pool).large } := by
  have hout : a ∉ s.larges := by
    intro hmem
    apply hnew
    simp only [nodes, List.mem_cons, List.mem_append]
    exact .inr (.inr (.inr hmem))
  have hlarges : s.larges.map (s.memory.mgPallocLarge pool c.size c.malloc).memory.largeBlock =
      s.larges.map s.memory.largeBlock := by
    apply List.map_congr_left
    intro x hx
    have hne : x ≠ a := fun heq => hout (heq ▸ hx)
    simp only [PoolMemory.mgPallocLarge, hm, largeBlock, Function.update_of_ne hne]
  have hfirst : (s.memory.mgPallocLarge pool c.size c.malloc).memory.largeBlock a =
      ⟨a, a + sizeofLargeBlock⟩ := by
    simp only [PoolMemory.mgPallocLarge, hm, largeBlock, Function.update_self]
  simp only [toPool]
  rw [List.map_cons, hlarges, hfirst]
  simp only [PoolMemory.mgPallocLarge, hm]
  rfl

/-- Whatever the `int` behind the pool reads as, a run of the memory does what the lists do. -/
theorem step_refines (h : s.Linked pool) (ht : step pool s c = some t) :
    (s.palloc pool c).map (·.result) = some (mgPalloc (s.toPool pool) c.size c.malloc
      (s.memory.failed (smallOf pool))).result ∧
    t.toPool pool = (mgPalloc (s.toPool pool) c.size c.malloc
      (s.memory.failed (smallOf pool))).pool := by
  obtain ⟨r, hr, hturn⟩ := turn_of_step h ht
  rw [hr]
  cases hturn with
  | gave hsize hl hl₁ hroom =>
    have hmax : c.size ≤ (s.toPool pool).max := hsize
    rw [mgPalloc, if_pos hmax, mgPallocSmall, search_toPool_some h hl hl₁ hroom]
    exact ⟨rfl, rfl⟩
  | refused hsize hnone hm =>
    have hmax : c.size ≤ (s.toPool pool).max := hsize
    rw [mgPalloc, if_pos hmax, mgPallocSmall, search_toPool_none hnone, hm]
    exact ⟨rfl, rfl⟩
  | paged hsize hnone hm hzero hnew hcount hf =>
    have hmax : c.size ≤ (s.toPool pool).max := hsize
    rw [mgPalloc, if_pos hmax, mgPallocSmall, search_toPool_none hnone, hm]
    exact ⟨rfl, toPool_paged h hnew hcount hf⟩
  | refusedLarge hsize hm =>
    have hmax : ¬ c.size ≤ (s.toPool pool).max := hsize
    rw [mgPalloc, if_neg hmax, mgPallocLarge, hm]
    exact ⟨rfl, rfl⟩
  | enlarged hsize hm hnew =>
    have hmax : ¬ c.size ≤ (s.toPool pool).max := hsize
    rw [mgPalloc, if_neg hmax, mgPallocLarge, hm]
    exact ⟨rfl, toPool_enlarged hm hnew⟩

theorem start_refines (m : PoolMemory) (pool size : ℕ) :
    Core.mgCreatePool size (fun _ => some pool) = some ((start m pool size).toPool pool) := rfl

/-- A pool that a run has led to holds lists that the same calls lead to. -/
theorem reachable_refines {m : PoolMemory} {size : ℕ}
    (h : Reachable (step pool) (fun _ _ => True) (start m pool size) s) :
    Reachable (fun l (call : PoolCall × ℤ) =>
        some (mgPalloc l call.1.size call.1.malloc call.2).pool)
      (fun _ _ => True) ((start m pool size).toPool pool) (s.toPool pool) := by
  induction h with
  | init => exact .init
  | @step s t c hs _ ht ih =>
    have hrefines := (step_refines (linked_of_reachable hs) ht).2
    rw [hrefines]
    exact .step (e := (c, s.memory.failed (smallOf pool))) ih trivial rfl

end PoolState

end MgRaffle.Core
