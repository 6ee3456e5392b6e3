import MgRaffle.Library.Stepping

open Stepping

namespace MgRaffle.TcpServer

/-- The source asserts that `size` is at most 4096. -/
def mallocSize (size : ℤ) : ℤ :=
  if 2048 < size ∧ size ≤ 4096 then 4096
  else if 1024 < size ∧ size ≤ 2048 then 2048
  else if 512 < size ∧ size ≤ 1024 then 1024
  else if 256 < size ∧ size ≤ 512 then 512
  else if 128 < size ∧ size ≤ 256 then 256
  else 128

/-- The bytes that the constructor asks `malloc` for, whatever the size is. -/
def storageSize : ℤ := 1000

/-- `usageSize` is `_remainp - _headp`, and `_headp` is where the storage is. -/
structure SBuffer where
  allocSize : ℤ
  realSize : ℤ
  remainSize : ℤ
  usageSize : ℤ
  deriving Repr, DecidableEq

namespace SBuffer

/-- `malloc` tells whether the storage was got. -/
def new (allocateSize : ℤ) (malloc : Bool) : SBuffer :=
  let realSize := if malloc then mallocSize allocateSize else 0
  ⟨allocateSize, realSize, realSize, 0⟩

def usage (b : SBuffer) (len : ℤ) : SBuffer :=
  { b with remainSize := b.remainSize - len, usageSize := b.usageSize + len }

def reset (b : SBuffer) : SBuffer :=
  { b with remainSize := b.realSize, usageSize := 0 }

/-- The buffer was made for the size, and what its users took and left makes it up. -/
def Of (b : SBuffer) (size : ℤ) : Prop := b.realSize = size ∧ b.usageSize + b.remainSize = size

end SBuffer

structure BufferList where
  bufferSize : ℤ
  bufList : List ℕ
  deriving Repr, DecidableEq

/-- The buffers by their numbers, `created` of them so far, and the lists by the sizes that the map
has a list for. -/
structure SBufferPool where
  buffers : ℕ → SBuffer
  created : ℕ
  bufsets : ℤ → Option BufferList

namespace SBufferPool

/-- The keys of `_bufsets`, in the order of the constructor. -/
def sizes : List ℤ := [128, 256, 512, 1024, 2048, 4096]

/-- The list made at place `i` of the constructor: 1000 buffers, those without storage dropped. -/
def initialList (malloc : ℕ → Bool) (size : ℤ) (i : ℕ) : BufferList :=
  ⟨size, ((List.range 1000).map (1000 * i + ·)).filter fun n =>
    decide (0 < (SBuffer.new size (malloc n)).realSize)⟩

/-- The buffers are numbered as they are made, and `malloc` says which ones get their storage. -/
def new (malloc : ℕ → Bool) : SBufferPool :=
  { buffers := fun n => SBuffer.new (sizes.getD (n / 1000) 0) (malloc n)
    created := 6000
    bufsets := fun size => (sizes.idxOf? size).map (initialList malloc size) }

/-- The number of the buffer returned. There is none where the map has no list. -/
def getBuffer (p : SBufferPool) (size : ℤ) (malloc : Bool) : Option (ℕ × SBufferPool) :=
  let realSize := mallocSize size
  (p.bufsets realSize).map fun li =>
    match li.bufList with
    | [] => (p.created, { p with
        buffers := Function.update p.buffers p.created (SBuffer.new li.bufferSize malloc)
        created := p.created + 1 })
    | n :: rest => (n, { p with
        bufsets := Function.update p.bufsets realSize (some { li with bufList := rest }) })

/-- Where the map has no list for the size it makes a null pointer, which is dereferenced. -/
def giveBack (p : SBufferPool) (n : ℕ) : Option SBufferPool :=
  let realSize := (p.buffers n).realSize
  (p.bufsets realSize).map fun li => { p with
    bufsets := Function.update p.bufsets realSize (some { li with bufList := li.bufList ++ [n] }) }

def usage (p : SBufferPool) (n : ℕ) (len : ℤ) : SBufferPool :=
  { p with buffers := Function.update p.buffers n ((p.buffers n).usage len) }

end SBufferPool

/-- A buffer and the size of the list that it was taken for. -/
structure Loan where
  buf : ℕ
  size : ℤ
  deriving Repr, DecidableEq

structure Lending where
  pool : SBufferPool
  held : List Loan

inductive PoolCall
  | getBuffer (size : ℤ) (malloc : Bool)
  | usage (loan : Loan) (len : ℤ)
  | giveBack (loan : Loan)
  deriving Repr, DecidableEq

namespace Lending

def start (malloc : ℕ → Bool) : Lending := ⟨.new malloc, []⟩

def step (s : Lending) : PoolCall → Option Lending
  | .getBuffer size malloc => (s.pool.getBuffer size malloc).map fun (n, p) =>
      ⟨p, ⟨n, mallocSize size⟩ :: s.held⟩
  | .usage loan len => some { s with pool := s.pool.usage loan.buf len }
  | .giveBack loan => (s.pool.giveBack loan.buf).map fun p => ⟨p, s.held.erase loan⟩

/-- What the users of the pool keep to. -/
def Legal (s : Lending) : PoolCall → Prop
  | .getBuffer size _ => 0 < size ∧ size ≤ 4096
  | .usage loan len => loan ∈ s.held ∧ 0 ≤ len ∧ len ≤ (s.pool.buffers loan.buf).remainSize
  | .giveBack loan => loan ∈ s.held

instance (s : Lending) (c : PoolCall) : Decidable (s.Legal c) := by
  cases c <;> unfold Legal <;> infer_instance

/-- The first buffer of the list has been used so little that the size fits behind what its last
users took; or the list is empty and `malloc` succeeds. -/
def Unused (s : Lending) : PoolCall → Prop
  | .getBuffer size malloc => ∀ li ∈ s.pool.bufsets (mallocSize size),
      (li.bufList = [] → malloc = true) ∧
        ∀ n ∈ li.bufList.head?, (s.pool.buffers n).usageSize + size ≤ mallocSize size
  | _ => True

instance (s : Lending) (c : PoolCall) : Decidable (s.Unused c) := by
  cases c <;> unfold Unused <;> infer_instance

/-- `get_buffer` returns a buffer that nobody holds and that has `size` bytes left, and `give_back`
puts the buffer once into the list that it was taken from, and into no other one. -/
def Served (s : Lending) : PoolCall → Prop
  | .getBuffer size malloc => ∃ n p, s.pool.getBuffer size malloc = some (n, p) ∧
      (∀ l ∈ s.held, l.buf ≠ n) ∧ size ≤ (p.buffers n).remainSize
  | .usage _ _ => True
  | .giveBack loan => ∃ p li, s.pool.giveBack loan.buf = some p ∧
      (s.pool.bufsets loan.size).isSome = true ∧ p.bufsets loan.size = some li ∧
      li.bufList.count loan.buf = 1 ∧
      ∀ size li', p.bufsets size = some li' → loan.buf ∈ li'.bufList → size = loan.size

variable {s t : Lending}

/-- Every buffer that is in a list or lent is there once and nowhere else, and has the size of its
list. -/
structure Sound (s : Lending) : Prop where
  lists : ∀ size, (s.pool.bufsets (mallocSize size)).isSome = true
  keys : ∀ size li, s.pool.bufsets size = some li → li.bufferSize = size ∧ mallocSize size = size
  nodup : ∀ size li, s.pool.bufsets size = some li → li.bufList.Nodup
  free : ∀ size li, s.pool.bufsets size = some li → ∀ n ∈ li.bufList,
    n < s.pool.created ∧ (s.pool.buffers n).Of size ∧ ∀ l ∈ s.held, l.buf ≠ n
  lent : ∀ l ∈ s.held, l.buf < s.pool.created ∧ (s.pool.buffers l.buf).Of l.size ∧
    (s.pool.bufsets l.size).isSome = true
  loans : (s.held.map (·.buf)).Nodup

section Start

theorem mallocSize_mem (size : ℤ) : mallocSize size ∈ SBufferPool.sizes := by
  unfold mallocSize
  split_ifs <;> decide

theorem mallocSize_of_mem {size : ℤ} (h : size ∈ SBufferPool.sizes) : mallocSize size = size := by
  fin_cases h <;> rfl

theorem new_of {size : ℤ} (h : mallocSize size = size) : (SBuffer.new size true).Of size := by
  unfold SBuffer.new SBuffer.Of
  simp only [if_true, h, zero_add, and_self]

theorem bufsets_new {malloc : ℕ → Bool} {size : ℤ} {li : BufferList}
    (h : (SBufferPool.new malloc).bufsets size = some li) : ∃ i, i < 6 ∧
      SBufferPool.sizes.getD i 0 = size ∧ size ∈ SBufferPool.sizes ∧
      li = SBufferPool.initialList malloc size i := by
  obtain ⟨i, hi, rfl⟩ := Option.map_eq_some_iff.mp h
  obtain ⟨hlt, hget, -⟩ := List.idxOf?_eq_some_iff.mp hi
  refine ⟨i, hlt, ?_, ?_, rfl⟩
  · rw [← List.getElem_eq_getD (h := hlt)]
    exact hget
  · rw [← hget]
    exact List.getElem_mem hlt

/-- Each buffer of an initial list has its storage and the size of the list. -/
theorem of_mem_initialList {malloc : ℕ → Bool} {size : ℤ} {i n : ℕ} (hi : i < 6)
    (hget : SBufferPool.sizes.getD i 0 = size) (hsize : size ∈ SBufferPool.sizes)
    (hn : n ∈ (SBufferPool.initialList malloc size i).bufList) :
    n < 6000 ∧ ((SBufferPool.new malloc).buffers n).Of size := by
  simp only [SBufferPool.initialList, List.mem_filter, List.mem_map, List.mem_range] at hn
  obtain ⟨⟨j, hj, rfl⟩, hreal⟩ := hn
  have hdiv : (1000 * i + j) / 1000 = i := by omega
  have hgot : malloc (1000 * i + j) = true := by
    by_contra hnot
    rw [Bool.not_eq_true] at hnot
    simp [SBuffer.new, hnot] at hreal
  refine ⟨by omega, ?_⟩
  show (SBuffer.new (SBufferPool.sizes.getD ((1000 * i + j) / 1000) 0) (malloc (1000 * i + j))).Of size
  rw [hdiv, hget, hgot]
  exact new_of (mallocSize_of_mem hsize)

theorem sound_start (malloc : ℕ → Bool) : (start malloc).Sound := by
  refine ⟨?_, ?_, ?_, ?_, ?_, List.nodup_nil⟩
  · intro size
    show ((SBufferPool.sizes.idxOf? (mallocSize size)).map _).isSome = true
    rw [Option.isSome_map, List.isSome_idxOf?]
    exact mallocSize_mem size
  · intro size li h
    obtain ⟨i, -, -, hsize, rfl⟩ := bufsets_new h
    exact ⟨rfl, mallocSize_of_mem hsize⟩
  · intro size li h
    obtain ⟨i, -, -, -, rfl⟩ := bufsets_new h
    simp only [SBufferPool.initialList]
    refine List.Nodup.filter _ (List.Nodup.map ?_ List.nodup_range)
    intro a b hab
    have hsum : 1000 * i + a = 1000 * i + b := hab
    omega
  · intro size li h n hn
    obtain ⟨i, hi, hget, hsize, rfl⟩ := bufsets_new h
    obtain ⟨hlt, hof⟩ := of_mem_initialList hi hget hsize hn
    exact ⟨hlt, hof, fun l hl => absurd hl List.not_mem_nil⟩
  · intro l hl
    exact absurd hl List.not_mem_nil

end Start

section Steps

variable {size : ℤ} {li : BufferList} {n : ℕ} {rest : List ℕ} {loan : Loan} {p : SBufferPool}

/-- A list that is there may get another content. -/
theorem update_lists {lists : ℤ → Option BufferList} (h : lists size = some li) (bufList : List ℕ)
    (key : ℤ) : (Function.update lists size (some { li with bufList := bufList }) key).isSome =
      (lists key).isSome := by
  by_cases hkey : key = size
  · rw [hkey, Function.update_self, h]
    rfl
  · rw [Function.update_of_ne hkey]

theorem update_eq_some {lists : ℤ → Option BufferList} {li li' : BufferList} {key : ℤ}
    (h : Function.update lists size (some li) key = some li') :
    key = size ∧ li' = li ∨ key ≠ size ∧ lists key = some li' := by
  by_cases hkey : key = size
  · rw [hkey, Function.update_self, Option.some.injEq] at h
    exact Or.inl ⟨hkey, h.symm⟩
  · rw [Function.update_of_ne hkey] at h
    exact Or.inr ⟨hkey, h⟩

/-- An empty list has a new buffer made, which has its storage. -/
theorem Sound.fresh (h : s.Sound) (hli : s.pool.bufsets size = some li) :
    Sound ⟨{ s.pool with
      buffers := Function.update s.pool.buffers s.pool.created (SBuffer.new li.bufferSize true)
      created := s.pool.created + 1 }, ⟨s.pool.created, size⟩ :: s.held⟩ := by
  obtain ⟨hsize, hkey⟩ := h.keys size li hli
  have hold : ∀ m < s.pool.created, Function.update s.pool.buffers s.pool.created
      (SBuffer.new li.bufferSize true) m = s.pool.buffers m := by
    intro m hm
    exact Function.update_of_ne hm.ne _ _
  refine ⟨h.lists, h.keys, h.nodup, ?_, ?_, ?_⟩
  · intro key li' hli' m hm
    obtain ⟨hlt, hof, hfree⟩ := h.free key li' hli' m hm
    dsimp only
    rw [hold m hlt]
    refine ⟨hlt.trans (Nat.lt_succ_self _), hof, ?_⟩
    intro l hl
    rcases List.mem_cons.mp hl with rfl | hl
    · exact hlt.ne'
    · exact hfree l hl
  · intro l hl
    dsimp only
    rcases List.mem_cons.mp hl with rfl | hl
    · refine ⟨Nat.lt_succ_self _, ?_, ?_⟩
      · rw [Function.update_self, hsize]
        exact new_of hkey
      · rw [hli]
        rfl
    · obtain ⟨hlt, hof, hsome⟩ := h.lent l hl
      rw [hold l.buf hlt]
      exact ⟨hlt.trans (Nat.lt_succ_self _), hof, hsome⟩
  · refine List.nodup_cons.mpr ⟨?_, h.loans⟩
    intro hmem
    obtain ⟨l, hl, heq⟩ := List.mem_map.mp hmem
    exact (h.lent l hl).1.ne heq

/-- One list gets another content, and the buffers other holders. -/
theorem Sound.relist (h : s.Sound) (hli : s.pool.bufsets size = some li) {bufList : List ℕ}
    {held : List Loan} (hnodup : bufList.Nodup)
    (hsize : ∀ m ∈ bufList, m < s.pool.created ∧ (s.pool.buffers m).Of size ∧
      ∀ l ∈ held, l.buf ≠ m)
    (hothers : ∀ key li', key ≠ size → s.pool.bufsets key = some li' → ∀ m ∈ li'.bufList,
      ∀ l ∈ held, l.buf ≠ m)
    (hheld : ∀ l ∈ held, l.buf < s.pool.created ∧ (s.pool.buffers l.buf).Of l.size ∧
      (s.pool.bufsets l.size).isSome = true)
    (hloans : (held.map (·.buf)).Nodup) :
    Sound ⟨{ s.pool with
      bufsets := Function.update s.pool.bufsets size (some { li with bufList := bufList }) }, held⟩ where
  lists := by
    intro x
    exact (update_lists hli bufList _).trans (h.lists x)
  keys := by
    intro key li' hli'
    rcases update_eq_some hli' with ⟨rfl, rfl⟩ | ⟨-, hli'⟩
    · exact h.keys key li hli
    · exact h.keys key li' hli'
  nodup := by
    intro key li' hli'
    rcases update_eq_some hli' with ⟨rfl, rfl⟩ | ⟨-, hli'⟩
    · exact hnodup
    · exact h.nodup key li' hli'
  free := by
    intro key li' hli' m hm
    rcases update_eq_some hli' with ⟨rfl, rfl⟩ | ⟨hkey, hli'⟩
    · exact hsize m hm
    · obtain ⟨hlt, hof, -⟩ := h.free key li' hli' m hm
      exact ⟨hlt, hof, hothers key li' hkey hli' m hm⟩
  lent := by
    intro l hl
    obtain ⟨hlt, hof, hsome⟩ := hheld l hl
    exact ⟨hlt, hof, (update_lists hli bufList _).trans hsome⟩
  loans := hloans

/-- The first buffer of a list is lent. -/
theorem Sound.popped (h : s.Sound) (hli : s.pool.bufsets size = some li)
    (hl : li.bufList = n :: rest) :
    Sound ⟨{ s.pool with
      bufsets := Function.update s.pool.bufsets size (some { li with bufList := rest }) },
      ⟨n, size⟩ :: s.held⟩ := by
  have hnodup := h.nodup size li hli
  have hlist := h.free size li hli
  rw [hl] at hnodup hlist
  obtain ⟨hnot, hrest⟩ := List.nodup_cons.mp hnodup
  obtain ⟨hlt, hof, hfree⟩ := hlist n List.mem_cons_self
  apply h.relist hli hrest
  · intro m hm
    obtain ⟨hlt', hof', hfree'⟩ := hlist m (List.mem_cons_of_mem _ hm)
    refine ⟨hlt', hof', ?_⟩
    intro l hl'
    rcases List.mem_cons.mp hl' with rfl | hl'
    · rintro rfl
      exact hnot hm
    · exact hfree' l hl'
  · intro key li' hkey hli' m hm l hl'
    obtain ⟨-, hof', hfree'⟩ := h.free key li' hli' m hm
    rcases List.mem_cons.mp hl' with rfl | hl'
    · -- the buffer of another list has another size
      intro heq
      rw [← heq] at hof'
      exact hkey (hof'.1.symm.trans hof.1)
    · exact hfree' l hl'
  · intro l hl'
    rcases List.mem_cons.mp hl' with rfl | hl'
    · exact ⟨hlt, hof, by rw [hli]; rfl⟩
    · exact h.lent l hl'
  · refine List.nodup_cons.mpr ⟨?_, h.loans⟩
    intro hmem
    obtain ⟨l, hl', heq⟩ := List.mem_map.mp hmem
    exact hfree l hl' heq

/-- Using a buffer moves bytes from what remains to what is used. -/
theorem Sound.used (h : s.Sound) (n : ℕ) (len : ℤ) :
    Sound ⟨s.pool.usage n len, s.held⟩ := by
  have hof : ∀ m key, (s.pool.buffers m).Of key →
      ((s.pool.usage n len).buffers m).Of key := by
    intro m key hm
    by_cases hmn : m = n
    · obtain ⟨hreal, hsum⟩ := hm
      rw [hmn] at hreal hsum ⊢
      simp only [SBufferPool.usage, Function.update_self, SBuffer.usage]
      constructor
      · exact hreal
      · dsimp only
        omega
    · simp only [SBufferPool.usage, Function.update_of_ne hmn]
      exact hm
  refine ⟨h.lists, h.keys, h.nodup, ?_, ?_, h.loans⟩
  · intro key li' hli' m hm
    obtain ⟨hlt, hm', hfree⟩ := h.free key li' hli' m hm
    exact ⟨hlt, hof m key hm', hfree⟩
  · intro l hl
    obtain ⟨hlt, hl', hsome⟩ := h.lent l hl
    exact ⟨hlt, hof l.buf l.size hl', hsome⟩

theorem Sound.giveBack_eq (h : s.Sound) (hl : loan ∈ s.held) : ∃ li,
    s.pool.bufsets loan.size = some li ∧ s.pool.giveBack loan.buf = some { s.pool with
      bufsets := Function.update s.pool.bufsets loan.size
        (some { li with bufList := li.bufList ++ [loan.buf] }) } := by
  obtain ⟨-, hof, hsome⟩ := h.lent loan hl
  obtain ⟨li, hli⟩ := Option.isSome_iff_exists.mp hsome
  refine ⟨li, hli, ?_⟩
  simp only [SBufferPool.giveBack, hof.1, hli, Option.map_some]

/-- A buffer given back is the last one of its list. -/
theorem Sound.returned (h : s.Sound) (hl : loan ∈ s.held) (hli : s.pool.bufsets loan.size = some li) :
    Sound ⟨{ s.pool with
      bufsets := Function.update s.pool.bufsets loan.size
        (some { li with bufList := li.bufList ++ [loan.buf] }) }, s.held.erase loan⟩ := by
  obtain ⟨hlt, hof, -⟩ := h.lent loan hl
  have hnot : loan.buf ∉ li.bufList := fun hmem => (h.free loan.size li hli _ hmem).2.2 loan hl rfl
  have hsub : ∀ l ∈ s.held.erase loan, l ∈ s.held := fun l hl' => List.mem_of_mem_erase hl'
  have hother : ∀ l ∈ s.held.erase loan, l.buf ≠ loan.buf := by
    intro l hl' heq
    have hloans := (List.perm_cons_erase hl).map (fun l : Loan => l.buf)
    have hnodup := (hloans.nodup_iff).mp h.loans
    rw [List.map_cons, List.nodup_cons] at hnodup
    exact hnodup.1 (heq ▸ List.mem_map_of_mem hl')
  apply h.relist hli
  · exact (List.nodup_cons.mpr ⟨hnot, h.nodup loan.size li hli⟩).perm
      (List.perm_append_singleton _ _).symm
  · intro m hm
    rcases List.mem_append.mp hm with hm | hm
    · obtain ⟨hlt', hof', hfree⟩ := h.free loan.size li hli m hm
      exact ⟨hlt', hof', fun l hl' => hfree l (hsub l hl')⟩
    · rw [List.mem_singleton.mp hm]
      exact ⟨hlt, hof, hother⟩
  · intro key li' _ hli' m hm l hl'
    exact (h.free key li' hli' m hm).2.2 l (hsub l hl')
  · intro l hl'
    exact h.lent l (hsub l hl')
  · exact h.loans.sublist (List.erase_sublist.map _)

theorem sound_step {c : PoolCall} (h : s.Sound) (hl : s.Legal c) (hu : s.Unused c)
    (hstep : s.step c = some t) : t.Sound := by
  cases c with
  | getBuffer size malloc =>
    obtain ⟨li, hli⟩ := Option.isSome_iff_exists.mp (h.lists size)
    simp only [step, SBufferPool.getBuffer, hli, Option.map_some, Option.some.injEq] at hstep
    rw [← hstep]
    cases hbuf : li.bufList with
    | nil =>
      have hmalloc := (hu li hli).1 hbuf
      rw [hmalloc]
      exact h.fresh hli
    | cons n rest => exact h.popped hli hbuf
  | usage loan len =>
    simp only [step, Option.some.injEq] at hstep
    rw [← hstep]
    exact h.used loan.buf len
  | giveBack loan =>
    obtain ⟨li, hli, hback⟩ := h.giveBack_eq hl
    simp only [step, hback, Option.map_some, Option.some.injEq] at hstep
    rw [← hstep]
    exact h.returned hl hli

theorem Sound.served {c : PoolCall} (h : s.Sound) (hl : s.Legal c) (hu : s.Unused c) :
    s.Served c := by
  cases c with
  | getBuffer size malloc =>
    obtain ⟨li, hli⟩ := Option.isSome_iff_exists.mp (h.lists size)
    obtain ⟨hsize, hkey⟩ := h.keys _ li hli
    unfold Served SBufferPool.getBuffer
    simp only [hli, Option.map_some, Option.some.injEq]
    cases hbuf : li.bufList with
    | nil =>
      have hmalloc := (hu li hli).1 hbuf
      refine ⟨_, _, rfl, fun l hl' => (h.lent l hl').1.ne, ?_⟩
      have hle : size ≤ mallocSize size := by
        obtain ⟨-, hmax⟩ := hl
        unfold mallocSize
        split_ifs <;> omega
      simp only [Function.update_self, SBuffer.new, hmalloc, if_true, hsize, hkey]
      exact hle
    | cons n rest =>
      have hmem : n ∈ li.bufList := by
        rw [hbuf]
        exact List.mem_cons_self
      obtain ⟨-, hof, hfree⟩ := h.free _ li hli n hmem
      have hfits := (hu li hli).2 n (by rw [hbuf]; rfl)
      refine ⟨n, _, rfl, hfree, ?_⟩
      have hsum := hof.2
      dsimp only
      omega
  | usage loan len => trivial
  | giveBack loan =>
    obtain ⟨li, hli, hback⟩ := h.giveBack_eq hl
    obtain ⟨-, hof, hsome⟩ := h.lent loan hl
    have hnot : loan.buf ∉ li.bufList :=
      fun hmem => (h.free loan.size li hli _ hmem).2.2 loan hl rfl
    refine ⟨_, _, hback, hsome, Function.update_self _ _ _, ?_, ?_⟩
    · dsimp only
      rw [List.count_append, List.count_eq_zero_of_not_mem hnot, List.count_singleton_self]
    · intro size li' hli' hmem
      rcases update_eq_some hli' with ⟨rfl, -⟩ | ⟨-, hli'⟩
      · rfl
      · exact absurd rfl ((h.free size li' hli' _ hmem).2.2 loan hl)

end Steps

/-- As long as every buffer got is a new one with storage or was hardly used before, each call is
served. -/
theorem pool_serves (malloc : ℕ → Bool) (s : Lending)
    (h : Reachable step (fun s c => s.Legal c ∧ s.Unused c) (start malloc) s) (c : PoolCall)
    (hl : s.Legal c) (hu : s.Unused c) : s.Served c := by
  have hsound : s.Sound := by
    apply Reachable.invariant Sound (sound_start malloc) _ h
    intro s c t hs hc hstep
    exact sound_step hs hc.1 hc.2 hstep
  exact hsound.served hl hu

/-- The pool for which `malloc` fails from the first call on. -/
def bare : Lending :=
  { pool :=
      { buffers := fun n => SBuffer.new (SBufferPool.sizes.getD (n / 1000) 0) false
        created := 6000
        bufsets := fun size => (SBufferPool.sizes.idxOf? size).map fun _ => ⟨size, []⟩ }
    held := [] }

theorem start_bare : start (fun _ => false) = bare := by
  have hlist : ∀ size, SBufferPool.initialList (fun _ => false) size = fun _ => ⟨size, []⟩ := by
    intro size
    funext i
    simp only [SBufferPool.initialList, SBuffer.new, BufferList.mk.injEq, true_and]
    exact List.filter_eq_nil_iff.mpr fun n _ => by simp
  unfold start SBufferPool.new bare
  simp only [hlist]

/-- A buffer with 20 of its bytes used is lent again. -/
theorem pool_serves_again : ∃ s, runIf step (fun s c => s.Legal c ∧ s.Unused c)
    (start fun _ => false)
    [.getBuffer 100 true, .usage ⟨6000, 128⟩ 20, .giveBack ⟨6000, 128⟩] = some s ∧
    s.Served (.getBuffer 100 false) := by
  rw [start_bare]
  obtain ⟨s, hs⟩ : ∃ s, runIf step (fun s c => s.Legal c ∧ s.Unused c) bare
    [.getBuffer 100 true, .usage ⟨6000, 128⟩ 20, .giveBack ⟨6000, 128⟩] = some s := ⟨_, rfl⟩
  have hcalled : s.Legal (.getBuffer 100 false) ∧ s.Unused (.getBuffer 100 false) := by
    cases hs
    decide
  exact ⟨s, hs, pool_serves (fun _ => false) s (start_bare ▸ .of_runIf .init hs) _ hcalled.1
    hcalled.2⟩

/-- A buffer with 100 of its 128 bytes used is lent again for 100 bytes. -/
theorem used_buffer_lent_again : ¬ ∀ (malloc : ℕ → Bool) (s : Lending),
    Reachable step Legal (start malloc) s → ∀ c, s.Legal c → s.Served c := by
  intro h
  obtain ⟨s, hs⟩ : ∃ s, runIf step Legal bare
    [.getBuffer 100 true, .usage ⟨6000, 128⟩ 100, .giveBack ⟨6000, 128⟩] = some s := ⟨_, rfl⟩
  have hserved := h (fun _ => false) s (start_bare ▸ .of_runIf .init hs) (.getBuffer 100 true)
    ⟨by decide, by decide⟩
  cases hs
  obtain ⟨n, p, hget, -, hsize⟩ := hserved
  cases hget
  revert hsize
  decide

end Lending

end MgRaffle.TcpServer
