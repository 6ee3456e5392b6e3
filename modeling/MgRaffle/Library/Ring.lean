import Mathlib.Data.List.Chain
import Mathlib.Tactic

namespace LinkRing

variable {ι : Type*}

/-- What every cell keeps of its two neighbours. -/
structure Links (ι : Type*) where
  next : ι → ι
  prev : ι → ι

namespace Links

/-- Both cells know of each other. -/
def Linked (m : Links ι) (a b : ι) : Prop := m.next a = b ∧ m.prev b = a

/-- The links lead from the head `h` through the cells of the list back to `h`, both ways. -/
structure Ring (m : Links ι) (h : ι) (xs : List ι) : Prop where
  linked : (h :: (xs ++ [h])).IsChain m.Linked
  nodup : (h :: xs).Nodup

/-- The same links seen from the other side. -/
def swap (m : Links ι) : Links ι := ⟨m.prev, m.next⟩

/-- The cells on the way from `p` to `h`, if `h` is at most `n` cells away. -/
def walk [DecidableEq ι] (next : ι → ι) (h : ι) : ℕ → ι → Option (List ι)
  | 0, _ => none
  | n + 1, p => if p = h then some [] else (walk next h n (next p)).map (p :: ·)

section Updates

variable [DecidableEq ι]

def setNext (m : Links ι) (a b : ι) : Links ι := { m with next := Function.update m.next a b }

def setPrev (m : Links ι) (a b : ι) : Links ι := { m with prev := Function.update m.prev a b }

/-- The cell `a` is told of `b` behind it, and `b` of `a` before it. -/
def link (m : Links ι) (a b : ι) : Links ι := (m.setNext a b).setPrev b a

/-- A cell that points to itself, both ways. -/
def close (m : Links ι) (a : ι) : Links ι := (m.setNext a a).setPrev a a

/-- The cell `e` is put right behind `p`. -/
def insertBehind (m : Links ι) (e p : ι) : Links ι :=
  let m := m.setNext e (m.next p)
  let m := m.setPrev e p
  let m := m.setPrev (m.next p) e
  m.setNext p e

/-- The neighbours of `e` are made neighbours of each other. -/
def unlink (m : Links ι) (e : ι) : Links ι :=
  let m := m.setNext (m.prev e) (m.next e)
  m.setPrev (m.next e) (m.prev e)

variable (m : Links ι) (a b : ι)

@[simp]
theorem setNext_next : (m.setNext a b).next = Function.update m.next a b := rfl

@[simp]
theorem setNext_prev : (m.setNext a b).prev = m.prev := rfl

@[simp]
theorem setPrev_next : (m.setPrev a b).next = m.next := rfl

@[simp]
theorem setPrev_prev : (m.setPrev a b).prev = Function.update m.prev a b := rfl

end Updates

variable {m m' : Links ι} {h a b e : ι} {xs us vs l : List ι}

theorem chain_congr (hchain : l.IsChain m.Linked) (hnext : ∀ b ∈ l.dropLast, m'.next b = m.next b)
    (hprev : ∀ b ∈ l.tail, m'.prev b = m.prev b) : l.IsChain m'.Linked := by
  induction l with
  | nil => exact List.isChain_nil
  | cons a l ih =>
    cases l with
    | nil => exact List.isChain_singleton a
    | cons b rest =>
      rw [List.isChain_cons_cons] at hchain ⊢
      obtain ⟨⟨hab, hba⟩, hrest⟩ := hchain
      rw [List.dropLast_cons_cons] at hnext
      refine ⟨⟨?_, ?_⟩, ?_⟩
      · rw [hnext a (List.mem_cons_self ..), hab]
      · rw [hprev b (List.mem_cons_self ..), hba]
      · apply ih hrest
        · intro c hc
          exact hnext c (List.mem_cons_of_mem _ hc)
        · intro c hc
          exact hprev c (List.mem_cons_of_mem _ hc)

section Join

variable [DecidableEq ι]

/-- Two chains become one when the last cell of the one is linked with the first of the other. Each
of the two may stand at the outer end of the other chain once more, where its new link is not
used. -/
theorem chain_link (us : List ι) (hl : (us ++ [a]).IsChain m.Linked)
    (hr : (b :: vs).IsChain m.Linked) (ha : a ∉ us ∧ a ∉ (b :: vs).dropLast)
    (hb : b ∉ (us ++ [a]).tail ∧ b ∉ vs) :
    (us ++ a :: b :: vs).IsChain (m.link a b).Linked := by
  have hnext : ∀ c, c ≠ a → (m.link a b).next c = m.next c :=
    fun c hca => Function.update_of_ne hca ..
  have hprev : ∀ c, c ≠ b → (m.link a b).prev c = m.prev c :=
    fun c hcb => Function.update_of_ne hcb ..
  rw [List.isChain_append_cons_cons]
  refine ⟨chain_congr hl ?_ ?_, ⟨Function.update_self .., Function.update_self ..⟩,
    chain_congr hr ?_ ?_⟩
  · intro c hc
    rw [List.dropLast_concat] at hc
    exact hnext c fun heq => ha.1 (heq ▸ hc)
  · intro c hc
    exact hprev c fun heq => hb.1 (heq ▸ hc)
  · intro c hc
    exact hnext c fun heq => ha.2 (heq ▸ hc)
  · intro c hc
    exact hprev c fun heq => hb.2 (heq ▸ hc)

end Join

namespace Ring

/-- The links of other cells do not matter. -/
theorem congr (hm : m.Ring h xs) (hnext : ∀ a ∈ h :: xs, m'.next a = m.next a)
    (hprev : ∀ a ∈ h :: xs, m'.prev a = m.prev a) : m'.Ring h xs := by
  refine ⟨chain_congr hm.linked ?_ ?_, hm.nodup⟩
  · intro a ha
    rw [← List.cons_append, List.dropLast_concat] at ha
    exact hnext a ha
  · intro a ha
    apply hprev a
    rw [List.tail_cons, List.mem_append, List.mem_singleton] at ha
    rcases ha with ha | rfl
    · exact List.mem_cons_of_mem _ ha
    · exact List.mem_cons_self ..

theorem swap (hm : m.Ring h xs) : m.swap.Ring h xs.reverse := by
  refine ⟨?_, ?_⟩
  · have hback : h :: (xs.reverse ++ [h]) = (h :: (xs ++ [h])).reverse := by simp
    rw [hback, List.isChain_reverse]
    apply hm.linked.imp
    intro a b hab
    exact ⟨hab.2, hab.1⟩
  · have hnodup := hm.nodup
    rw [List.nodup_cons] at hnodup ⊢
    rw [List.mem_reverse, List.nodup_reverse]
    exact hnodup

/-- The first cell is the neighbour of the head. -/
theorem next_head (hm : m.Ring h xs) : m.next h = xs.head?.getD h := by
  have hlinked := hm.linked
  cases xs with
  | nil => exact (List.isChain_cons_cons.mp hlinked).1.1
  | cons a as => exact (List.isChain_cons_cons.mp hlinked).1.1

theorem prev_head (hm : m.Ring h xs) : m.prev h = xs.getLast?.getD h := by
  rw [← List.head?_reverse]
  exact hm.swap.next_head

theorem walk_of_chain [DecidableEq ι] {n : ℕ} (hchain : (a :: (l ++ [h])).IsChain m.Linked)
    (hl : h ∉ l) (hn : l.length < n) : walk m.next h n (m.next a) = some l := by
  induction l generalizing a n with
  | nil =>
    obtain ⟨n, rfl⟩ : ∃ k, n = k + 1 := ⟨n - 1, by omega⟩
    rw [(List.isChain_cons_cons.mp hchain).1.1, walk, if_pos rfl]
  | cons b rest ih =>
    obtain ⟨n, rfl⟩ : ∃ k, n = k + 1 := ⟨n - 1, by omega⟩
    rw [List.cons_append, List.isChain_cons_cons] at hchain
    obtain ⟨hab, hrest⟩ := hchain
    rw [List.mem_cons, not_or] at hl
    rw [List.length_cons] at hn
    rw [hab.1, walk, if_neg (Ne.symm hl.1), ih hrest hl.2 (by omega), Option.map_some]

/-- The walk along the links meets the cells in their order. -/
theorem walk_next [DecidableEq ι] {n : ℕ} (hm : m.Ring h xs) (hn : xs.length < n) :
    walk m.next h n (m.next h) = some xs :=
  walk_of_chain hm.linked (List.nodup_cons.mp hm.nodup).1 hn

theorem walk_prev [DecidableEq ι] {n : ℕ} (hm : m.Ring h xs) (hn : xs.length < n) :
    walk m.prev h n (m.prev h) = some xs.reverse :=
  hm.swap.walk_next (by rwa [List.length_reverse])

/-- The list and its head again, with the cell that follows the head brought out. -/
theorem round_eq (xs : List ι) (h : ι) : ∃ rest, xs ++ [h] = xs.head?.getD h :: rest := by
  cases xs with
  | nil => exact ⟨[], rfl⟩
  | cons a as => exact ⟨as ++ [h], rfl⟩

/-- Each cell has a neighbour behind it that is in the circle, and that knows of it. -/
theorem exists_linked (hm : m.Ring h xs) (ha : a ∈ h :: xs) :
    m.Linked a (m.next a) ∧ m.next a ∈ h :: xs := by
  obtain ⟨us, vs, hus⟩ := List.append_of_mem ha
  obtain ⟨rest, hrest⟩ := round_eq vs h
  generalize vs.head?.getD h = b at hrest
  have hlinked := hm.linked
  rw [← List.cons_append, hus, List.append_assoc, List.cons_append, hrest,
    List.isChain_append_cons_cons] at hlinked
  obtain ⟨-, hab, -⟩ := hlinked
  have hb : b ∈ vs ++ [h] := hrest ▸ List.mem_cons_self ..
  rw [hab.1]
  refine ⟨hab, ?_⟩
  rcases List.mem_append.mp hb with hb | hb
  · exact hus ▸ List.mem_append_right us (List.mem_cons_of_mem a hb)
  · rw [List.mem_singleton.mp hb]
    exact List.mem_cons_self ..

theorem next_mem (hm : m.Ring h xs) (ha : a ∈ h :: xs) : m.next a ∈ h :: xs :=
  (hm.exists_linked ha).2

theorem prev_mem (hm : m.Ring h xs) (ha : a ∈ h :: xs) : m.prev a ∈ h :: xs := by
  have hback : m.prev a ∈ h :: xs.reverse := hm.swap.next_mem (by simpa using ha)
  simpa using hback

theorem prev_next (hm : m.Ring h xs) (ha : a ∈ h :: xs) : m.prev (m.next a) = a :=
  (hm.exists_linked ha).1.2

theorem next_prev (hm : m.Ring h xs) (ha : a ∈ h :: xs) : m.next (m.prev a) = a :=
  hm.swap.prev_next (by simpa using ha)

theorem round_nodup (hm : m.Ring h xs) : (xs ++ [h]).Nodup :=
  (List.perm_append_singleton h xs).nodup_iff.mpr hm.nodup

section Updates

variable [DecidableEq ι]

theorem close (m : Links ι) (h : ι) : (m.close h).Ring h [] := by
  refine ⟨?_, List.nodup_singleton h⟩
  rw [List.nil_append, List.isChain_pair]
  constructor <;> simp [Links.close]

/-- A new cell behind the head is the first one. -/
theorem insertBehind (hm : m.Ring h xs) (he : e ∉ h :: xs) :
    (m.insertBehind e h).Ring h (e :: xs) := by
  have hround := hm.round_nodup
  have hlinked := hm.linked
  have hhxs := (List.nodup_cons.mp hm.nodup).1
  have heround : e ∉ xs ++ [h] := by simpa [or_comm] using he
  obtain ⟨rest, hrest⟩ := round_eq xs h
  have hfirst := hm.next_head
  generalize xs.head?.getD h = f at hrest hfirst
  have hdrop : (f :: rest).dropLast = xs := by rw [← hrest, List.dropLast_concat]
  rw [hrest] at hlinked hround heround
  rw [List.mem_cons, not_or] at he
  have hef : e ≠ f := fun heq => heround (heq ▸ List.mem_cons_self ..)
  -- the new cell is linked with the one behind it, and then the head with the new cell
  have hlinks : m.insertBehind e h = (m.link e f).link h e := by
    simp [Links.insertBehind, link, setNext, setPrev, hfirst, Function.update_of_ne (Ne.symm he.1),
      Function.update_comm hef]
  have hbehind : (e :: f :: rest).IsChain (m.link e f).Linked := by
    apply chain_link [] (List.isChain_singleton e) (List.isChain_cons_cons.mp hlinked).2
    · exact ⟨List.not_mem_nil, by rw [hdrop]; exact he.2⟩
    · exact ⟨List.not_mem_nil, (List.nodup_cons.mp hround).1⟩
  refine ⟨?_, ?_⟩
  · rw [List.cons_append, hrest, hlinks]
    apply chain_link [] (List.isChain_singleton h) hbehind
    · refine ⟨List.not_mem_nil, ?_⟩
      rw [List.dropLast_cons_cons, hdrop, List.mem_cons, not_or]
      exact ⟨Ne.symm he.1, hhxs⟩
    · exact ⟨List.not_mem_nil, heround⟩
  · rw [List.nodup_cons, List.mem_cons, not_or, List.nodup_cons]
    exact ⟨⟨Ne.symm he.1, hhxs⟩, he.2, (List.nodup_cons.mp hm.nodup).2⟩

/-- Another circle does not see the new cell. -/
theorem insertBehind_of_disjoint {k : ι} {ys : List ι} (hk : m.Ring k ys) (hm : m.Ring h xs)
    (he : e ∉ k :: ys) (hapart : (h :: xs).Disjoint (k :: ys)) :
    (m.insertBehind e h).Ring k ys := by
  have hfirst : m.next h ∈ h :: xs := by
    rw [hm.next_head]
    cases xs with
    | nil => exact List.mem_cons_self ..
    | cons a as => exact List.mem_cons_of_mem _ (List.mem_cons_self ..)
  apply hk.congr
  · intro a ha
    have hae : a ≠ e := fun heq => he (heq ▸ ha)
    have hah : a ≠ h := fun heq => hapart (List.mem_cons_self ..) (heq ▸ ha)
    simp [Links.insertBehind, Function.update_of_ne hae, Function.update_of_ne hah]
  · intro a ha
    have hae : a ≠ e := fun heq => he (heq ▸ ha)
    have haf : a ≠ m.next h := fun heq => hapart hfirst (heq ▸ ha)
    by_cases hhe : h = e
    · subst hhe
      simp [Links.insertBehind, Function.update_of_ne hae, Function.update_of_ne haf]
    · simp [Links.insertBehind, Function.update_of_ne hae, Function.update_of_ne haf,
        Function.update_of_ne hhe]

theorem insertBefore_of_disjoint {k : ι} {ys : List ι} (hk : m.Ring k ys) (hm : m.Ring h xs)
    (he : e ∉ k :: ys) (hapart : (h :: xs).Disjoint (k :: ys)) :
    (m.swap.insertBehind e h).swap.Ring k ys := by
  have hback := (hk.swap.insertBehind_of_disjoint hm.swap (e := e) (by simpa using he) ?_).swap
  · rwa [List.reverse_reverse] at hback
  · intro a ha ha'
    exact hapart (by simpa using ha) (by simpa using ha')

/-- A cell before the head is the last one. -/
theorem insertBefore (hm : m.Ring h xs) (he : e ∉ h :: xs) :
    (m.swap.insertBehind e h).swap.Ring h (xs ++ [e]) := by
  have hback := (hm.swap.insertBehind (e := e) (by simpa using he)).swap
  rwa [List.reverse_cons, List.reverse_reverse] at hback

/-- The other cells stay in their order. -/
theorem unlink (hm : m.Ring h (us ++ e :: vs)) : (m.unlink e).Ring h (us ++ vs) := by
  have hlinked := hm.linked
  have hnodup := hm.nodup
  have hround := hm.round_nodup
  obtain ⟨pre, a, hpre⟩ : ∃ pre a, h :: us = pre ++ [a] :=
    ⟨_, _, (List.dropLast_append_getLast (List.cons_ne_nil h us)).symm⟩
  obtain ⟨post, hpost⟩ := round_eq vs h
  generalize vs.head?.getD h = b at hpost
  have hdrop : (b :: post).dropLast = vs := by rw [← hpost, List.dropLast_concat]
  rw [List.append_assoc, List.cons_append, hpost] at hlinked hround
  rw [← List.cons_append, hpre, List.append_assoc, List.singleton_append] at hlinked hnodup
  rw [List.isChain_append_cons_cons, List.isChain_cons_cons] at hlinked
  obtain ⟨hleft, ⟨hae, hea⟩, ⟨heb, hbe⟩, hright⟩ := hlinked
  rw [List.nodup_append] at hnodup hround
  obtain ⟨-, hmid, hapart⟩ := hnodup
  obtain ⟨-, hend, hapart'⟩ := hround
  rw [List.nodup_cons, List.mem_cons, not_or] at hmid
  obtain ⟨⟨hane, havs⟩, -⟩ := hmid
  have hlinks : m.unlink e = m.link a b := by
    simp [Links.unlink, link, setNext, setPrev, hea, heb, Function.update_of_ne (Ne.symm hane)]
  refine ⟨?_, ?_⟩
  · rw [List.append_assoc, hpost, ← List.cons_append, hpre, List.append_assoc,
      List.singleton_append, hlinks]
    apply chain_link _ hleft hright
    · refine ⟨fun hmem => hapart a hmem a (List.mem_cons_self ..) rfl, ?_⟩
      rw [hdrop]
      exact havs
    · refine ⟨?_, (List.nodup_cons.mp (List.nodup_cons.mp hend).2).1⟩
      rw [← hpre, List.tail_cons]
      exact fun hmem => hapart' b hmem b (List.mem_cons_of_mem _ (List.mem_cons_self ..)) rfl
  · have hsub : (us ++ vs).Sublist (us ++ e :: vs) :=
      List.Sublist.append_left (List.sublist_cons_self e vs) us
    exact hm.nodup.sublist (hsub.cons_cons h)

/-- Another circle does not see that the cell is gone. -/
theorem unlink_of_disjoint {k : ι} {ys : List ι} (hk : m.Ring k ys) (hm : m.Ring h xs)
    (he : e ∈ h :: xs) (hapart : (h :: xs).Disjoint (k :: ys)) : (m.unlink e).Ring k ys := by
  have hprev := hm.prev_mem he
  have hnext := hm.next_mem he
  have hbehind : (m.setNext (m.prev e) (m.next e)).next e = m.next e := by
    by_cases hself : e = m.prev e
    · rw [setNext_next, ← hself, Function.update_self]
    · rw [setNext_next, Function.update_of_ne hself]
  apply hk.congr
  · intro a ha
    have hne : a ≠ m.prev e := fun heq => hapart hprev (heq ▸ ha)
    exact Function.update_of_ne hne _ _
  · intro a ha
    have hne : a ≠ m.next e := fun heq => hapart hnext (heq ▸ ha)
    rw [Links.unlink, hbehind]
    exact Function.update_of_ne hne _ _

end Updates

end Ring

/-- A circle is a list of different cells that the links lead through and back to its head, each of
them the neighbour of its neighbours. -/
theorem ring_iff : m.Ring h xs ↔ (h :: xs).Nodup ∧
    (h :: (xs ++ [h])).IsChain (fun a b => m.next a = b) ∧
    ∀ a ∈ h :: xs, m.prev (m.next a) = a ∧ m.next (m.prev a) = a := by
  constructor
  · intro hm
    exact ⟨hm.nodup, hm.linked.imp fun _ _ hab => hab.1,
      fun a ha => ⟨hm.prev_next ha, hm.next_prev ha⟩⟩
  · rintro ⟨hnodup, hchain, hback⟩
    refine ⟨hchain.imp_of_mem_imp ?_, hnodup⟩
    rintro a b ha - rfl
    have hmem : a ∈ h :: xs := by
      rw [List.mem_cons, List.mem_append, List.mem_singleton] at ha
      rw [List.mem_cons]
      tauto
    exact ⟨rfl, (hback a hmem).1⟩

end Links

end LinkRing
