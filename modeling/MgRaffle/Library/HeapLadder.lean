import MgRaffle.Library.BinaryHeap
import Mathlib.Data.Multiset.Lattice
import Mathlib.Order.Lattice
import Mathlib.Data.Finset.Lattice.Fold

namespace BinaryHeap

section Passing

variable {α β : Type*} (r : α → α → Prop) [DecidableRel r] (q : β → β → Prop) [DecidableRel q]

/-- In one of the calls of `heapify` the element that sinks passes `e`. -/
def BuildPasses (n : ℕ) : ℕ → (ℕ → α) → ℕ → Prop
  | 0, _, _ => False
  | i + 1, a, e => Sinks r n a i e ∨ BuildPasses n i (sift r n a i) e

/-- In one of the calls of `drain` the element that sinks passes `e`. -/
def DrainPasses : ℕ → (ℕ → α) → ℕ → Prop
  | 0, _, _ => False
  | i + 1, a, e =>
    Sinks r (i + 1) (a ∘ Equiv.swap 0 (i + 1)) 0 e ∨
      DrainPasses i (sift r (i + 1) (a ∘ Equiv.swap 0 (i + 1)) 0) e

/-- The first `n` elements of two arrays stand in the same order. -/
def Alike (n : ℕ) (a : ℕ → α) (f : ℕ → β) : Prop :=
  ∀ j, j < n → ∀ k, k < n → (r (a j) (a k) ↔ q (f j) (f k))

variable {r q} {n i d e : ℕ} {a : ℕ → α} {f : ℕ → β}

namespace Alike

omit [DecidableRel r] [DecidableRel q]

theorem symm (h : Alike r q n a f) : Alike q r n f a := fun j hj k hk => (h j hj k hk).symm

theorem mono {m : ℕ} (h : Alike r q n a f) (hm : m ≤ n) : Alike r q m a f :=
  fun j hj k hk => h j (hj.trans_le hm) k (hk.trans_le hm)

theorem swap {l m : ℕ} (h : Alike r q n a f) (hl : l < n) (hm : m < n) :
    Alike r q n (a ∘ Equiv.swap l m) (f ∘ Equiv.swap l m) := by
  have hlt : ∀ k, k < n → Equiv.swap l m k < n := by
    intro k hk
    rw [Equiv.swap_apply_def]
    split_ifs <;> assumption
  exact fun j hj k hk => h _ (hlt j hj) _ (hlt k hk)

variable [DecidableRel r] [DecidableRel q]

theorem greater_eq (h : Alike r q n a f) (d : ℕ) : greater r n a d = greater q n f d := by
  have hiff : (2 * d + 2 < n ∧ ¬ r (a (2 * d + 2)) (a (2 * d + 1))) ↔
      (2 * d + 2 < n ∧ ¬ q (f (2 * d + 2)) (f (2 * d + 1))) :=
    and_congr_right fun hlt => not_congr (h _ hlt _ (by omega))
  unfold greater
  simp only [hiff]

theorem sinking_iff (h : Alike r q n a f) (d : ℕ) : Sinking r n a d ↔ Sinking q n f d := by
  unfold Sinking
  rw [h.greater_eq d]
  exact and_congr_right fun hlt => h d (by omega) _ (greater_lt hlt)

theorem sinks (h : Alike r q n a f) (hs : Sinks r n a d e) : Sinks q n f d e := by
  induction hs generalizing f with
  | here => exact .here
  | @deeper a d e hsink _ ih =>
    have hlt := greater_lt (r := r) (a := a) hsink.1
    have hd := (greater_isChild (r := r) n a d).lt
    have hrest := ih (h.swap (hd.trans hlt) hlt)
    rw [h.greater_eq d] at hrest
    exact .deeper ((h.sinking_iff d).mp hsink) hrest

theorem sinks_iff (h : Alike r q n a f) : Sinks r n a d e ↔ Sinks q n f d e :=
  ⟨h.sinks, h.symm.sinks⟩

theorem sift (h : Alike r q n a f) (d : ℕ) :
    Alike r q n (BinaryHeap.sift r n a d) (BinaryHeap.sift q n f d) := by
  induction a, d using sift.induct r n generalizing f with
  | case1 a d hsink ih =>
    have hlt := greater_lt (r := r) (a := a) hsink.1
    have hd := (greater_isChild (r := r) n a d).lt
    have hrest := ih (h.swap (hd.trans hlt) hlt)
    rw [sift_of_sinking hsink, sift_of_sinking ((h.sinking_iff d).mp hsink), ← h.greater_eq d]
    exact hrest
  | case2 a d hsink =>
    rw [sift_of_not_sinking hsink, sift_of_not_sinking (mt (h.sinking_iff d).mpr hsink)]
    exact h

theorem buildPasses_iff (h : Alike r q n a f) : BuildPasses r n i a e ↔ BuildPasses q n i f e := by
  induction i generalizing a f with
  | zero => exact Iff.rfl
  | succ i ih => exact or_congr h.sinks_iff (ih (h.sift i))

theorem heapify (h : Alike r q n a f) (i : ℕ) :
    Alike r q n (BinaryHeap.heapify r n i a) (BinaryHeap.heapify q n i f) := by
  induction i generalizing a f with
  | zero => exact h
  | succ i ih => exact ih (h.sift i)

theorem drainPasses_iff (h : Alike r q (i + 1) a f) : DrainPasses r i a e ↔ DrainPasses q i f e := by
  induction i generalizing a f with
  | zero => exact Iff.rfl
  | succ i ih =>
    have hswap := (h.swap (Nat.succ_pos _) (Nat.lt_succ_self _)).mono (Nat.le_succ (i + 1))
    exact or_congr hswap.sinks_iff (ih (hswap.sift 0))

end Alike

theorem Sinks.eq_or_deeper (h : Sinks r n a d e) : e = d ∨ Sinking r n a d ∧
    Sinks r n (a ∘ Equiv.swap d (greater r n a d)) (greater r n a d) e := by
  cases h with
  | here => exact .inl rfl
  | deeper hsink hs => exact .inr ⟨hsink, hs⟩

/-- What does not pass `e` leaves it alone, also where it comes to rest above it. -/
theorem sift_eq_of_not_sinks (h : ¬ Sinks r n a d e) : sift r n a d e = a e := by
  induction a, d using sift.induct r n with
  | case1 a d hsink ih =>
    have hde : e ≠ d := by
      rintro rfl
      exact h .here
    have hce : e ≠ greater r n a d := by
      rintro rfl
      exact h (.deeper hsink .here)
    rw [sift_of_sinking hsink, ih fun hs => h (.deeper hsink hs), Function.comp_apply,
      Equiv.swap_apply_of_ne_of_ne hde hce]
  | case2 a d hsink => rw [sift_of_not_sinking hsink]

theorem lt_of_buildPasses (hi : i ≤ n) (h : BuildPasses r n i a e) : e < n := by
  induction i generalizing a with
  | zero => exact h.elim
  | succ i ih =>
    rcases h with hs | hp
    · exact (below_of_sinks hs).2 hi
    · exact ih (by omega) hp

theorem heapify_eq_of_not_passes (h : ¬ BuildPasses r n i a e) : heapify r n i a e = a e := by
  induction i generalizing a with
  | zero => rfl
  | succ i ih =>
    obtain ⟨hs, hp⟩ := not_or.mp h
    rw [heapify, ih hp, sift_eq_of_not_sinks hs]

end Passing

section Ancestors

/-- The place above `c`. -/
def parent (c : ℕ) : ℕ := (c - 1) / 2

/-- The other child of the place above `c`. -/
def sibling (c : ℕ) : ℕ := if c % 2 = 1 then c + 1 else c - 1

def ancestor (e : ℕ) : ℕ → ℕ
  | 0 => e
  | j + 1 => parent (ancestor e j)

variable {c d e k p : ℕ}

theorem isChild_parent (h : c ≠ 0) : IsChild (parent c) c := by
  unfold IsChild parent
  omega

theorem IsChild.eq_parent (h : IsChild p c) : p = parent c := by
  unfold IsChild at h
  unfold parent
  omega

theorem isChild_sibling (h : c ≠ 0) : IsChild (parent c) (sibling c) := by
  unfold IsChild parent sibling
  split <;> omega

theorem sibling_ne (h : c ≠ 0) : sibling c ≠ c := by
  unfold sibling
  split <;> omega

theorem sibling_ne_zero (h : c ≠ 0) : sibling c ≠ 0 := by
  unfold sibling
  split <;> omega

theorem parent_sibling (h : c ≠ 0) : parent (sibling c) = parent c :=
  (isChild_sibling h).eq_parent.symm

theorem eq_or_eq_sibling (h : IsChild (parent c) k) (hc : c ≠ 0) : k = c ∨ k = sibling c := by
  unfold IsChild parent at h
  unfold sibling
  split <;> omega

theorem parent_lt (h : c ≠ 0) : parent c < c := (isChild_parent h).lt

theorem below_ancestor (e j : ℕ) : Below (ancestor e j) e := by
  induction j with
  | zero => exact .root
  | succ j ih =>
    by_cases hzero : ancestor e j = 0
    · rw [ancestor, hzero]
      exact below_zero e
    · exact (isChild_parent hzero).below.trans ih

theorem ancestor_antitone (e : ℕ) : Antitone (ancestor e) := by
  refine antitone_nat_of_succ_le fun j => ?_
  rw [ancestor, parent]
  omega

/-- How far `e` is from the root. -/
def depth (e : ℕ) : ℕ := Nat.log 2 (e + 1)

theorem ancestor_eq (e j : ℕ) : ancestor e j = (e + 1) / 2 ^ j - 1 := by
  induction j with
  | zero => rw [ancestor, pow_zero, Nat.div_one, Nat.add_sub_cancel]
  | succ j ih =>
    rw [ancestor, ih, parent, pow_succ, ← Nat.div_div_eq_div_mul]
    omega

theorem ancestor_eq_zero_iff {e j : ℕ} : ancestor e j = 0 ↔ depth e ≤ j := by
  rw [ancestor_eq, Nat.sub_eq_zero_iff_le, ← Nat.lt_succ_iff, Nat.div_lt_iff_lt_mul (by positivity),
    depth, ← Nat.lt_succ_iff, Nat.log_lt_iff_lt_pow (by decide) (Nat.succ_ne_zero e), pow_succ,
    mul_comm]

theorem ancestor_ne_zero {e j : ℕ} (h : j < depth e) : ancestor e j ≠ 0 :=
  fun hzero => absurd (ancestor_eq_zero_iff.mp hzero) h.not_ge

/-- Whatever `e` lies below is an ancestor of it. -/
theorem Below.exists_ancestor (h : Below d e) : ∃ j, ancestor e j = d := by
  induction h with
  | root => exact ⟨0, rfl⟩
  | @child p c _ hc ih =>
    obtain ⟨j, hj⟩ := ih
    have hshift : ∀ j, ancestor c (j + 1) = ancestor p j := by
      intro j
      induction j with
      | zero => exact hc.eq_parent.symm
      | succ j ih => rw [ancestor, ih, ancestor]
    exact ⟨j + 1, (hshift j).trans hj⟩

end Ancestors

section Bag

variable {β : Type*} {n i d e k : ℕ} {f g : ℕ → β}

/-- The places of the subtree of `d` among the first `n`. -/
def subtree (n d : ℕ) : Finset ℕ := (Finset.range n).filter (Below d)

/-- The elements of a subtree, in no order. -/
def bag (n : ℕ) (g : ℕ → β) (d : ℕ) : Multiset β := (subtree n d).val.map g

theorem mem_subtree : k ∈ subtree n d ↔ Below d k ∧ k < n := by
  rw [subtree, Finset.mem_filter, Finset.mem_range, and_comm]

theorem mem_bag {x : β} : x ∈ bag n g d ↔ ∃ k, Below d k ∧ k < n ∧ g k = x := by
  simp only [bag, Multiset.mem_map, Finset.mem_val, mem_subtree, and_assoc]

theorem bag_congr (h : ∀ k, Below d k → k < n → f k = g k) : bag n f d = bag n g d := by
  refine Multiset.map_congr rfl fun k hk => ?_
  have hk := mem_subtree.mp hk
  exact h k hk.1 hk.2

/-- A bag does not know which place an element has. -/
theorem bag_permuted (h : Permuted {k | Below d k ∧ k < n} f g) : bag n g d = bag n f d := by
  obtain ⟨σ, hσ, rfl⟩ := h
  have hsub : {k | σ k ≠ k} ⊆ (subtree n d : Set ℕ) := by
    intro k hk
    by_contra hout
    exact hk (hσ k fun hin => hout (mem_subtree.mpr hin))
  have hmap : (subtree n d).val.map σ = (subtree n d).val :=
    congrArg Finset.val (Finset.map_perm hsub)
  rw [bag, ← Multiset.map_map, hmap, bag]

/-- Of two subtrees one lies in the other, or they have nothing in common. -/
theorem below_or_below (hd : Below d k) (he : Below e k) : Below d e ∨ Below e d := by
  induction hd with
  | root => exact .inr he
  | @child p c hp hc ih =>
    by_cases hce : c = e
    · subst hce
      exact .inl (.child hp hc)
    · exact ih (he.parent hc hce)

theorem bag_sift {r : β → β → Prop} [DecidableRel r] (h : Below i d → d = i) :
    bag n (sift r n g i) d = bag n g d := by
  by_cases hdi : Below d i
  · refine bag_permuted ((sift_permuted n g i).mono ?_)
    rintro k ⟨hk, hkn⟩
    exact ⟨hdi.trans hk, hkn⟩
  · refine bag_congr fun k hk _ => sift_of_not_below fun hik => ?_
    rcases below_or_below hik hk with hid | hid
    · rw [h hid] at hdi
      exact hdi .root
    · exact hdi hid

/-- One place of a subtree gets a new element. -/
theorem bag_update (hk : Below d k) (hkn : k < n) (h : ∀ l, Below d l → l ≠ k → f l = g l)
    [DecidableEq β] : bag n f d = f k ::ₘ (bag n g d).erase (g k) := by
  have hmem : k ∈ (subtree n d).val := mem_subtree.mpr ⟨hk, hkn⟩
  have hrest : ((subtree n d).val.erase k).map f = ((subtree n d).val.erase k).map g := by
    refine Multiset.map_congr rfl fun l hl => ?_
    obtain ⟨hne, hl⟩ := (subtree n d).nodup.mem_erase_iff.mp hl
    exact h l (mem_subtree.mp hl).1 hne
  have hcons : ∀ x : ℕ → β, bag n x d = x k ::ₘ ((subtree n d).val.erase k).map x := by
    intro x
    rw [← Multiset.map_cons, Multiset.cons_erase hmem, bag]
  rw [hcons f, hcons g, hrest, Multiset.erase_cons_head]

/-- The last place of an array is taken away. -/
theorem bag_pred [DecidableEq β] (h : Below d n) : bag n g d = (bag (n + 1) g d).erase (g n) := by
  have hset : subtree (n + 1) d = Finset.cons n (subtree n d) fun hin =>
      lt_irrefl n (mem_subtree.mp hin).2 := by
    ext k
    rw [Finset.mem_cons, mem_subtree, mem_subtree]
    constructor
    · rintro ⟨hk, hlt⟩
      by_cases hkn : k = n
      · exact .inl hkn
      · exact .inr ⟨hk, by omega⟩
    · rintro (rfl | ⟨hk, hlt⟩)
      · exact ⟨h, Nat.lt_succ_self _⟩
      · exact ⟨hk, by omega⟩
  rw [bag, bag, hset, Finset.cons_val, Multiset.map_cons, Multiset.erase_cons_head]

theorem bag_pred_of_not_below (h : ¬ Below d n) : bag n g d = bag (n + 1) g d := by
  have hset : subtree (n + 1) d = subtree n d := by
    ext k
    rw [mem_subtree, mem_subtree]
    refine and_congr_right fun hk => ⟨fun hlt => ?_, by omega⟩
    by_contra hnot
    obtain rfl : k = n := by omega
    exact h hk
  rw [bag, bag, hset]

theorem bag_eq_zero (h : n ≤ d) : bag n g d = 0 := by
  rw [Multiset.eq_zero_iff_forall_notMem]
  intro x hx
  obtain ⟨k, hk, hkn, -⟩ := mem_bag.mp hx
  exact absurd hk.le (by omega)

variable [LinearOrder β] [OrderBot β]

/-- The root of a heap is the greatest of it. -/
theorem sup_bag {g : ℕ → β} (hd : d < n)
    (h : ∀ p, Below d p → Dominates (· ≤ ·) n g p) : (bag n g d).sup = g d := by
  refine le_antisymm (Multiset.sup_le.mpr fun x hx => ?_) (Multiset.le_sup ?_)
  · obtain ⟨k, hk, hkn, rfl⟩ := mem_bag.mp hx
    exact le_root (· ≤ ·) h hk hkn
  · exact mem_bag.mpr ⟨d, .root, hd, rfl⟩

end Bag

section Ladder

variable {β : Type*}

/-- A place on the way down to `e`: its element, and beside it the elements of its sibling's
subtree, of which only the greatest matters. -/
@[ext]
structure Rung (β : Type*) where
  place : ℕ
  value : β
  beside : Multiset β

variable [LinearOrder β] [OrderBot β]

/-- The rung's element is above all beside it, where the left one of two equal ones counts as the
greater one. -/
def Rung.Wins (rung : Rung β) : Prop :=
  if rung.place % 2 = 1 then rung.beside.sup ≤ rung.value else rung.beside.sup < rung.value

instance (rung : Rung β) : Decidable rung.Wins := inferInstanceAs (Decidable (ite _ _ _))

/-- `x`, let down from above the rungs, comes down to the last of them. -/
def Lands (x : β) (rungs : List (Rung β)) : Prop := ∀ rung ∈ rungs, rung.Wins ∧ x ≤ rung.value

/-- What then is above the rungs, and the rungs: `x` stays on one of them, or goes into a bag. -/
def letDown (x : β) : List (Rung β) → β × List (Rung β)
  | [] => (x, [])
  | rung :: rungs =>
    if rung.Wins then
      if x ≤ rung.value then
        (rung.value, { rung with value := (letDown x rungs).1 } :: (letDown x rungs).2)
      else (x, rung :: rungs)
    else
      if x ≤ rung.beside.sup then
        (rung.beside.sup, { rung with beside := x ::ₘ rung.beside.erase rung.beside.sup } :: rungs)
      else (x, rung :: rungs)

/-- The way from the `j`-th ancestor of `e` down to `e`, after all those ancestors have been let
down, the lowest one first. -/
def ladder (n : ℕ) (f : ℕ → β) (e : ℕ) : ℕ → List (Rung β)
  | 0 => [⟨e, f e, bag n f (sibling e)⟩]
  | j + 1 =>
    let down := letDown (f (ancestor e (j + 1))) (ladder n f e j)
    ⟨ancestor e (j + 1), down.1, bag n f (sibling (ancestor e (j + 1)))⟩ :: down.2

/-- No ancestor of `e` comes down to it. -/
def Unreached (n : ℕ) (f : ℕ → β) (e : ℕ) : Prop :=
  ∀ j, j < depth e → ¬ Lands (f (ancestor e (j + 1))) (ladder n f e j)

/-- `x` at the place `i` is taken out of the bag it is in. -/
def Rung.without (i : ℕ) (x : β) (rung : Rung β) : Rung β :=
  if Below (sibling rung.place) i then { rung with beside := rung.beside.erase x } else rung

/-- The elements behind `e` are let down from the root, the last one first, and none comes down to
`e`. -/
def Kept (f : ℕ → β) (e : ℕ) : ℕ → List (Rung β) → Prop
  | 0, _ => True
  | i + 1, rungs =>
    (e ≤ i → ¬ Lands (f (i + 1)) (rungs.map (Rung.without (i + 1) (f (i + 1))))) ∧
      Kept f e i (letDown (f (i + 1)) (rungs.map (Rung.without (i + 1) (f (i + 1))))).2

/-- The way from the root down to `e` in an array. -/
def way (n : ℕ) (g : ℕ → β) (e : ℕ) : ℕ → List (Rung β)
  | 0 => []
  | j + 1 => ⟨ancestor e j, g (ancestor e j), bag n g (sibling (ancestor e j))⟩ :: way n g e j

variable {n i e j k : ℕ} {f g : ℕ → β} {x : β}

theorem lands_cons {rung : Rung β} {rungs : List (Rung β)} :
    Lands x (rung :: rungs) ↔ (rung.Wins ∧ x ≤ rung.value) ∧ Lands x rungs := List.forall_mem_cons

omit [LinearOrder β] [OrderBot β] in
theorem way_congr (h : ∀ k, Below (ancestor e j) k → k ≠ ancestor e j → k < n → f k = g k)
    (he : e < n) (hj : j ≤ depth e) : way n f e j = way n g e j := by
  induction j with
  | zero => rfl
  | succ j ih =>
    have hc := ancestor_ne_zero hj
    have hchild := isChild_parent hc
    have hsibling := isChild_sibling hc
    have hbelow : ∀ {c k}, IsChild (ancestor e (j + 1)) c → Below c k → k < n → f k = g k := by
      intro c k hc hk hkn
      have hlt := hc.lt
      have hle := hk.le
      exact h k (hc.below.trans hk) (by omega) hkn
    rw [way, way, bag_congr fun k hk hkn => hbelow hsibling hk hkn,
      hbelow hchild .root ((below_ancestor e j).le.trans_lt he),
      ih (fun k hk _ hkn => hbelow hchild hk hkn) (by omega)]

/-- The child that takes the place of its parent. -/
theorem wins_iff {c : ℕ} (hc : c ≠ 0) (hcn : c < n)
    (h : ∀ p, Below (parent c) p → p ≠ parent c → Dominates (· ≤ ·) n g p) :
    Rung.Wins ⟨c, g c, bag n g (sibling c)⟩ ↔ greater (· ≤ ·) n g (parent c) = c := by
  have hsup : sibling c < n → (bag n g (sibling c)).sup = g (sibling c) := by
    intro hlt
    refine sup_bag hlt fun p hp => ?_
    have hchild := isChild_sibling hc
    have hle := hp.le
    have := hchild.lt
    exact h p (hchild.below.trans hp) (by omega)
  rw [Rung.Wins, greater]
  by_cases hodd : c % 2 = 1
  · have hs : sibling c = c + 1 := if_pos hodd
    have hleft : 2 * parent c + 1 = c := by
      unfold parent
      omega
    rw [if_pos hodd, hs, hleft, show 2 * parent c + 2 = c + 1 by omega]
    by_cases hlt : c + 1 < n
    · rw [← hs, hsup (hs ▸ hlt), hs]
      split_ifs with hright
      · exact iff_of_false hright.2 (by omega)
      · exact iff_of_true (by_contra fun hno => hright ⟨hlt, hno⟩) rfl
    · rw [bag_eq_zero (by omega), if_neg fun h => hlt h.1]
      exact iff_of_true bot_le rfl
  · have hs : sibling c = c - 1 := if_neg hodd
    have hleft : 2 * parent c + 1 = c - 1 := by
      unfold parent
      omega
    rw [if_neg hodd, hsup (by omega), hs, hleft, show 2 * parent c + 2 = c by omega, ← not_le]
    split_ifs with hright
    · exact iff_of_true hright.2 rfl
    · exact iff_of_false (fun hno => hright ⟨hcn, hno⟩) (by omega)

omit [LinearOrder β] [OrderBot β] in
/-- The swap with the first place on the way changes nothing further down. -/
theorem way_swap (hc : IsChild (ancestor e (j + 1)) (ancestor e j)) (he : e < n)
    (hj : j ≤ depth e) :
    way n (g ∘ Equiv.swap (ancestor e (j + 1)) (ancestor e j)) e j = way n g e j :=
  way_congr (fun _ hk hne _ => swap_apply_of_below hc hk hne) he hj

/-- An element sinks to `e` where it is let down to the last rung. -/
theorem sinks_iff_lands (he : e < n) (hj : j ≤ depth e)
    (h : ∀ p, Below (ancestor e j) p → p ≠ ancestor e j → Dominates (· ≤ ·) n g p) :
    Sinks (· ≤ ·) n g (ancestor e j) e ↔ Lands (g (ancestor e j)) (way n g e j) := by
  induction j generalizing g with
  | zero => exact iff_of_true .here fun rung hr => absurd hr List.not_mem_nil
  | succ j ih =>
    have hne := ancestor_ne_zero hj
    have hc : IsChild (ancestor e (j + 1)) (ancestor e j) := isChild_parent hne
    have hcn := (below_ancestor e j).le.trans_lt he
    have hwins := wins_iff hne hcn h
    have hrest := ih (by omega) fun p hp => dominates_swap hc h hp
    rw [way_swap hc he (by omega), Function.comp_apply,
      Equiv.swap_apply_right] at hrest
    rw [way, lands_cons, hwins, ← hrest]
    constructor
    · intro hs
      obtain heq | ⟨hsink, hs⟩ := hs.eq_or_deeper
      · have hle := (below_ancestor e j).le
        have hlt := hc.lt
        omega
      · -- the child that it goes to has `e` below it, and so is the one on the way
        have hgreater := Below.eq_of_children (greater_isChild _ _ _) hc (below_of_sinks hs).1
          (below_ancestor e j)
        have hle := hsink.2
        rw [hgreater] at hs hle
        exact ⟨⟨hgreater, hle⟩, hs⟩
    · rintro ⟨⟨hgreater, hle⟩, hs⟩
      have hsink : Sinking (· ≤ ·) n g (ancestor e (j + 1)) := by
        refine ⟨?_, ?_⟩
        · rcases hc with hc | hc <;> omega
        · rw [show greater (· ≤ ·) n g (ancestor e (j + 1)) = _ from hgreater]
          exact hle
      refine .deeper hsink ?_
      rw [show greater (· ≤ ·) n g (ancestor e (j + 1)) = _ from hgreater]
      exact hs

omit [OrderBot β] in
/-- The element above goes down the way: the child on it comes up, and the bag beside it stays. -/
theorem way_sift_down (hj : j < depth e)
    (hsink : Sinking (· ≤ ·) n g (ancestor e (j + 1)))
    (hgreater : greater (· ≤ ·) n g (ancestor e (j + 1)) = ancestor e j) :
    sift (· ≤ ·) n g (ancestor e (j + 1)) (ancestor e (j + 1)) = g (ancestor e j) ∧
      way n (sift (· ≤ ·) n g (ancestor e (j + 1))) e (j + 1) =
        let h := sift (· ≤ ·) n (g ∘ Equiv.swap (ancestor e (j + 1)) (ancestor e j)) (ancestor e j)
        ⟨ancestor e j, h (ancestor e j), bag n g (sibling (ancestor e j))⟩ :: way n h e j := by
  have hne := ancestor_ne_zero hj
  have hc : IsChild (ancestor e (j + 1)) (ancestor e j) := isChild_parent hne
  have hs : IsChild (ancestor e (j + 1)) (sibling (ancestor e j)) := isChild_sibling hne
  have hroot : ¬ Below (ancestor e j) (ancestor e (j + 1)) := fun hb => absurd hb.le hc.lt.not_ge
  rw [sift_of_sinking hsink, hgreater]
  constructor
  · rw [sift_of_not_below hroot, Function.comp_apply, Equiv.swap_apply_left]
  · rw [way, bag_congr fun k hk _ => sift_swap_of_sibling hc hs (sibling_ne hne) hk]

omit [OrderBot β] in
/-- It goes beside the way: the sibling comes up, and in its bag there is now what went down. -/
theorem way_sift_beside (he : e < n) (hj : j < depth e)
    (hsink : Sinking (· ≤ ·) n g (ancestor e (j + 1)))
    (hgreater : greater (· ≤ ·) n g (ancestor e (j + 1)) = sibling (ancestor e j)) :
    sift (· ≤ ·) n g (ancestor e (j + 1)) (ancestor e (j + 1)) = g (sibling (ancestor e j)) ∧
      way n (sift (· ≤ ·) n g (ancestor e (j + 1))) e (j + 1) =
        ⟨ancestor e j, g (ancestor e j), g (ancestor e (j + 1)) ::ₘ
          (bag n g (sibling (ancestor e j))).erase (g (sibling (ancestor e j)))⟩ ::
            way n g e j := by
  have hne := ancestor_ne_zero hj
  have hc : IsChild (ancestor e (j + 1)) (ancestor e j) := isChild_parent hne
  have hs : IsChild (ancestor e (j + 1)) (sibling (ancestor e j)) := isChild_sibling hne
  have hsn : sibling (ancestor e j) < n := hgreater ▸ greater_lt hsink.1
  have hroot : ¬ Below (sibling (ancestor e j)) (ancestor e (j + 1)) :=
    fun hb => absurd hb.le hs.lt.not_ge
  have hpath : ∀ k, Below (ancestor e j) k → sift (· ≤ ·) n
      (g ∘ Equiv.swap (ancestor e (j + 1)) (sibling (ancestor e j)))
      (sibling (ancestor e j)) k = g k :=
    fun k hk => sift_swap_of_sibling hs hc (sibling_ne hne).symm hk
  have hbag := bag_update (n := n) (.root) hsn (g := g)
    (f := g ∘ Equiv.swap (ancestor e (j + 1)) (sibling (ancestor e j)))
    fun k hk hkne => swap_apply_of_below hs hk hkne
  rw [Function.comp_apply, Equiv.swap_apply_right] at hbag
  rw [sift_of_sinking hsink, hgreater]
  constructor
  · rw [sift_of_not_below hroot, Function.comp_apply, Equiv.swap_apply_left]
  · rw [way, way_congr (fun k hk _ _ => hpath k hk) he hj.le, hpath _ .root, bag_sift fun _ => rfl,
      hbag]

/-- Where it does not, letting it down shows the array after it has sunk. -/
theorem letDown_way (he : e < n) (hj : j ≤ depth e)
    (h : ∀ p, Below (ancestor e j) p → p ≠ ancestor e j → Dominates (· ≤ ·) n g p)
    (hlands : ¬ Lands (g (ancestor e j)) (way n g e j)) :
    letDown (g (ancestor e j)) (way n g e j) =
      (sift (· ≤ ·) n g (ancestor e j) (ancestor e j),
        way n (sift (· ≤ ·) n g (ancestor e j)) e j) := by
  induction j generalizing g with
  | zero => exact absurd (fun rung hr => absurd hr List.not_mem_nil) hlands
  | succ j ih =>
    have hne := ancestor_ne_zero hj
    have hc : IsChild (ancestor e (j + 1)) (ancestor e j) := isChild_parent hne
    have hs : IsChild (ancestor e (j + 1)) (sibling (ancestor e j)) := isChild_sibling hne
    have hson : 2 * ancestor e (j + 1) + 1 < n := by
      have hcn := (below_ancestor e j).le.trans_lt he
      rcases hc with hc | hc <;> omega
    have hwins := wins_iff hne ((below_ancestor e j).le.trans_lt he) h
    have hsink : Sinking (· ≤ ·) n g (ancestor e (j + 1)) ↔
        g (ancestor e (j + 1)) ≤ g (greater (· ≤ ·) n g (ancestor e (j + 1))) :=
      and_iff_right hson
    rw [way, letDown]
    by_cases hw : Rung.Wins ⟨ancestor e j, g (ancestor e j), bag n g (sibling (ancestor e j))⟩
    · have hgreater : greater (· ≤ ·) n g (ancestor e (j + 1)) = ancestor e j := hwins.mp hw
      rw [hgreater] at hsink
      rw [if_pos hw]
      by_cases hle : g (ancestor e (j + 1)) ≤ g (ancestor e j)
      · obtain ⟨htop, hway⟩ := way_sift_down hj (hsink.mpr hle) hgreater
        have hrest := ih (by omega) fun p hp => dominates_swap hc h hp
        rw [way_swap hc he (by omega), Function.comp_apply, Equiv.swap_apply_right] at hrest
        rw [if_pos hle, htop, hway, hrest fun hl => hlands (lands_cons.mpr ⟨⟨hw, hle⟩, hl⟩)]
      · rw [if_neg hle, sift_of_not_sinking (mt hsink.mp hle), way]
    · have hgreater : greater (· ≤ ·) n g (ancestor e (j + 1)) = sibling (ancestor e j) :=
        (eq_or_eq_sibling (greater_isChild n g _) hne).resolve_left (mt hwins.mpr hw)
      have hsup : (bag n g (sibling (ancestor e j))).sup = g (sibling (ancestor e j)) := by
        refine sup_bag (hgreater ▸ greater_lt hson) fun p hp => h p (hs.below.trans hp) ?_
        have := hp.le
        have := hs.lt
        omega
      rw [hgreater] at hsink
      rw [if_neg hw, hsup]
      by_cases hle : g (ancestor e (j + 1)) ≤ g (sibling (ancestor e j))
      · obtain ⟨htop, hway⟩ := way_sift_beside he hj (hsink.mpr hle) hgreater
        rw [if_pos hle, htop, hway]
      · rw [if_neg hle, sift_of_not_sinking (mt hsink.mp hle), way]

omit [OrderBot β] in
/-- Nothing of what is shown lies below a place that `e` does not lie below. -/
theorem way_sift_of_not_below (hi : ¬ Below i e) (hj : j ≤ depth e) :
    way n (sift (· ≤ ·) n g i) e j = way n g e j := by
  induction j with
  | zero => rfl
  | succ j ih =>
    have hne := ancestor_ne_zero hj
    have hplace : ∀ l, ¬ Below i (ancestor e l) := fun l hl => hi (hl.trans (below_ancestor e l))
    have hbag : bag n (sift (· ≤ ·) n g i) (sibling (ancestor e j)) =
        bag n g (sibling (ancestor e j)) := by
      refine bag_sift fun hb => ?_
      by_contra hsi
      exact hplace (j + 1) (hb.parent (isChild_sibling hne) hsi)
    rw [way, way, sift_of_not_below (hplace j), hbag, ih (by omega)]

/-- The array `g` that `heapify` has made of `f`, with `i` calls to go: the ancestors of `e` up to
the `j`-th have been sifted. -/
structure Built (n : ℕ) (f g : ℕ → β) (e i j : ℕ) : Prop where
  le_depth : j ≤ depth e
  top : i ≤ ancestor e j
  next : j < depth e → ancestor e (j + 1) < i
  same : ∀ k, k < i → g k = f k
  bags : ∀ d, (d ≠ 0 → parent d < i) → bag n g d = bag n f d
  heap : ∀ p, i ≤ p → Dominates (· ≤ ·) n g p
  shows : way n g e (j + 1) = ladder n f e j

namespace Built

/-- Of an array nothing has happened to, the second half is a heap. -/
theorem start (he : e < n) (hleaf : n / 2 ≤ e) : Built n f f e (n / 2) 0 where
  le_depth := Nat.zero_le _
  top := hleaf
  next hj := by
    have hne := ancestor_ne_zero hj
    simp only [ancestor, parent] at hne ⊢
    omega
  same _ _ := rfl
  bags _ _ := rfl
  heap p hp c hc hcn := by
    rcases hc with hc | hc <;> omega
  shows := rfl

theorem strict (h : Built n f g e (i + 1) j) :
    ∀ p, Below i p → p ≠ i → Dominates (· ≤ ·) n g p := by
  intro p hp hpi
  have hle := hp.le
  exact h.heap p (by omega)

theorem lt_depth (h : Built n f g e (i + 1) j) : j < depth e := by
  have htop := h.top
  by_contra hj
  have hzero := (ancestor_eq_zero_iff (e := e)).mpr (not_lt.mp hj)
  omega

theorem sinks_iff (h : Built n f g e (i + 1) j) (he : e < n) (hi : ancestor e (j + 1) = i) :
    Sinks (· ≤ ·) n g i e ↔ Lands (f i) (ladder n f e j) := by
  have hiff := sinks_iff_lands (g := g) he h.lt_depth
  rw [hi, h.shows, h.same i (Nat.lt_succ_self i)] at hiff
  exact hiff h.strict

theorem not_below (h : Built n f g e (i + 1) j) (hi : ancestor e (j + 1) ≠ i) : ¬ Below i e := by
  intro hb
  obtain ⟨l, rfl⟩ := hb.exists_ancestor
  have htop := h.top
  have hnext := h.next h.lt_depth
  rcases Nat.lt_or_ge l (j + 1) with hl | hl
  · have := ancestor_antitone e (Nat.lt_succ_iff.mp hl)
    omega
  · have := ancestor_antitone e hl
    omega

theorem bags_sift (h : Built n f g e (i + 1) j) (d : ℕ) (hd : d ≠ 0 → parent d < i) :
    bag n (sift (· ≤ ·) n g i) d = bag n f d := by
  have hbag : bag n (sift (· ≤ ·) n g i) d = bag n g d := by
    refine bag_sift fun hb => ?_
    by_contra hdi
    have hlt := hb.le
    have hd0 : d ≠ 0 := by omega
    have := (hb.parent (isChild_parent hd0) hdi).le
    have := hd hd0
    omega
  rw [hbag]
  exact h.bags d fun hd0 => (hd hd0).trans (Nat.lt_succ_self i)

theorem same_sift (h : Built n f g e (i + 1) j) (k : ℕ) (hk : k < i) :
    sift (· ≤ ·) n g i k = f k := by
  rw [sift_of_not_below fun hb => absurd hb.le (by omega)]
  exact h.same k (by omega)

/-- A call that has nothing to do with `e`. -/
theorem step_beside (h : Built n f g e (i + 1) j) (hi : ancestor e (j + 1) ≠ i) :
    Built n f (sift (· ≤ ·) n g i) e i j where
  le_depth := h.le_depth
  top := (Nat.le_succ i).trans h.top
  next hj := by
    have := h.next hj
    omega
  same := h.same_sift
  bags := h.bags_sift
  heap := sift_dominates_from h.heap
  shows := (way_sift_of_not_below (h.not_below hi) h.lt_depth).trans h.shows

/-- The call for the next ancestor of `e`, which does not come down to it. -/
theorem step_above (h : Built n f g e (i + 1) j) (he : e < n) (hi : ancestor e (j + 1) = i)
    (hlands : ¬ Lands (f i) (ladder n f e j)) : Built n f (sift (· ≤ ·) n g i) e i (j + 1) where
  le_depth := h.lt_depth
  top := hi.ge
  next hj := by
    have := parent_lt (ancestor_ne_zero hj)
    rw [ancestor]
    omega
  same := h.same_sift
  bags := h.bags_sift
  heap := sift_dominates_from h.heap
  shows := by
    subst hi
    have hdown := letDown_way (g := g) he h.lt_depth h.strict
    rw [h.shows, h.same _ (Nat.lt_succ_self _)] at hdown
    have hbag := h.bags_sift (sibling (ancestor e (j + 1))) fun hs => by
      have hne : ancestor e (j + 1) ≠ 0 := by
        intro hzero
        rw [hzero] at hs
        exact hs rfl
      rw [parent_sibling hne]
      exact parent_lt hne
    simp only [way, ladder, hdown hlands, hbag]

theorem buildPasses_iff (h : Built n f g e i j) (he : e < n) :
    BuildPasses (· ≤ ·) n i g e ↔
      ∃ l, j ≤ l ∧ l < depth e ∧ Lands (f (ancestor e (l + 1))) (ladder n f e l) := by
  induction i generalizing g j with
  | zero =>
    refine iff_of_false id ?_
    rintro ⟨l, hjl, hl, -⟩
    exact absurd (h.next (hjl.trans_lt hl)) (Nat.not_lt_zero _)
  | succ i ih =>
    by_cases hi : ancestor e (j + 1) = i
    · by_cases hlands : Lands (f i) (ladder n f e j)
      · refine iff_of_true (.inl ((h.sinks_iff he hi).mpr hlands)) ?_
        exact ⟨j, le_refl j, h.lt_depth, hi ▸ hlands⟩
      · rw [BuildPasses, h.sinks_iff he hi, or_iff_right hlands, ih (h.step_above he hi hlands)]
        constructor
        · rintro ⟨l, hjl, hl⟩
          exact ⟨l, by omega, hl⟩
        · rintro ⟨l, hjl, hl⟩
          refine ⟨l, Nat.lt_of_le_of_ne hjl ?_, hl⟩
          rintro rfl
          exact hlands (hi ▸ hl.2)
    · have hnot : ¬ Sinks (· ≤ ·) n g i e :=
        fun hs => h.not_below hi (below_of_sinks hs).1
      rw [BuildPasses, or_iff_right hnot, ih (h.step_beside hi)]

/-- Where no element has come down to `e`, all its ancestors have been let down in the end. -/
theorem heapify (h : Built n f g e i j) (he : e < n) (hp : ¬ BuildPasses (· ≤ ·) n i g e) :
    Built n f (BinaryHeap.heapify (· ≤ ·) n i g) e 0 (depth e) := by
  induction i generalizing g j with
  | zero =>
    have hj : j = depth e := by
      refine h.le_depth.antisymm (not_lt.mp fun hj => ?_)
      exact absurd (h.next hj) (Nat.not_lt_zero _)
    exact hj ▸ h
  | succ i ih =>
    obtain ⟨hs, hp⟩ := not_or.mp hp
    by_cases hi : ancestor e (j + 1) = i
    · exact ih (h.step_above he hi (mt (h.sinks_iff he hi).mpr hs)) hp
    · exact ih (h.step_beside hi) hp

end Built

/-- In building a heap no element comes down to a leaf `e` where none of its ancestors does. -/
theorem not_buildPasses_iff (he : e < n) (hleaf : n / 2 ≤ e) :
    ¬ BuildPasses (· ≤ ·) n (n / 2) f e ↔ Unreached n f e := by
  rw [(Built.start (f := f) he hleaf).buildPasses_iff he]
  constructor
  · intro h j hj hlands
    exact h ⟨j, Nat.zero_le j, hj, hlands⟩
  · rintro h ⟨j, -, hj, hlands⟩
    exact h j hj hlands

theorem way_heapify (he : e < n) (hleaf : n / 2 ≤ e) (h : Unreached n f e) :
    way n (heapify (· ≤ ·) n (n / 2) f) e (depth e) = (ladder n f e (depth e)).tail := by
  have hbuilt := (Built.start (f := f) he hleaf).heapify he ((not_buildPasses_iff he hleaf).mpr h)
  rw [← hbuilt.shows, way, List.tail_cons]

omit [OrderBot β] in
/-- Taking the last place away, and its element to the root. -/
theorem way_swap_last (hei : e ≤ i) (hj : j ≤ depth e) :
    way (i + 1) (g ∘ Equiv.swap 0 (i + 1)) e j =
      (way (i + 2) g e j).map (Rung.without (i + 1) (g (i + 1))) := by
  have hsame : ∀ k, k ≠ 0 → k ≤ i → (g ∘ Equiv.swap 0 (i + 1)) k = g k := by
    intro k hk hki
    rw [Function.comp_apply, Equiv.swap_apply_of_ne_of_ne hk (by omega)]
  induction j with
  | zero => rfl
  | succ j ih =>
    have hne := ancestor_ne_zero hj
    have hle := (below_ancestor e j).le
    have hbag : bag (i + 1) (g ∘ Equiv.swap 0 (i + 1)) (sibling (ancestor e j)) =
        bag (i + 1) g (sibling (ancestor e j)) := by
      refine bag_congr fun k hk hki => hsame k ?_ (by omega)
      have := hk.le
      have := sibling_ne_zero hne
      omega
    rw [way, way, List.map_cons, ih (by omega), hsame _ hne (by omega), hbag, Rung.without]
    by_cases hb : Below (sibling (ancestor e j)) (i + 1)
    · rw [if_pos hb, bag_pred hb]
    · rw [if_neg hb, bag_pred_of_not_below hb]

variable {w : ℕ} {rungs : ℕ → List (Rung β)}

/-- The array `g` that `drain` has made of a heap, with `i` calls to go, as long as from `w` on
every place has kept the element that `f` has there. -/
structure Drained (w : ℕ) (f g : ℕ → β) (i : ℕ) (rungs : ℕ → List (Rung β)) : Prop where
  heap : ∀ p, Dominates (· ≤ ·) (i + 1) g p
  same : ∀ k, w ≤ k → k ≤ i → g k = f k
  shows : ∀ e, w ≤ e → e ≤ i → way (i + 1) g e (depth e) = rungs e

namespace Drained

theorem sinks_iff (h : Drained w f g (i + 1) rungs) (hwe : w ≤ e) (hei : e ≤ i) :
    Sinks (· ≤ ·) (i + 1) (g ∘ Equiv.swap 0 (i + 1)) 0 e ↔
      Lands (f (i + 1)) ((rungs e).map (Rung.without (i + 1) (f (i + 1)))) := by
  have hroot : ancestor e (depth e) = 0 := ancestor_eq_zero_iff.mpr le_rfl
  have hiff := sinks_iff_lands (n := i + 1) (g := g ∘ Equiv.swap 0 (i + 1))
    (Nat.lt_succ_of_le hei) (le_refl (depth e))
  rw [hroot, way_swap_last hei le_rfl, h.shows e hwe (by omega), Function.comp_apply,
    Equiv.swap_apply_left, h.same (i + 1) (by omega) le_rfl] at hiff
  exact hiff fun p _ hp => dominates_swap_last h.heap hp

theorem step (h : Drained w f g (i + 1) rungs)
    (hs : ∀ e, w ≤ e → ¬ Sinks (· ≤ ·) (i + 1) (g ∘ Equiv.swap 0 (i + 1)) 0 e) :
    Drained w f (sift (· ≤ ·) (i + 1) (g ∘ Equiv.swap 0 (i + 1)) 0) i fun e =>
      (letDown (f (i + 1)) ((rungs e).map (Rung.without (i + 1) (f (i + 1))))).2 where
  heap := dominates_drained h.heap
  same k hwk hki := by
    have hk : k ≠ 0 := by
      rintro rfl
      exact hs 0 hwk .here
    rw [sift_eq_of_not_sinks (hs k hwk), Function.comp_apply,
      Equiv.swap_apply_of_ne_of_ne hk (by omega)]
    exact h.same k hwk (by omega)
  shows e hwe hei := by
    have hroot : ancestor e (depth e) = 0 := ancestor_eq_zero_iff.mpr le_rfl
    have hdown := letDown_way (n := i + 1) (g := g ∘ Equiv.swap 0 (i + 1))
      (Nat.lt_succ_of_le hei) (le_refl (depth e))
    rw [hroot, way_swap_last hei le_rfl, h.shows e hwe (by omega), Function.comp_apply,
      Equiv.swap_apply_left, h.same (i + 1) (by omega) le_rfl] at hdown
    rw [hdown (fun p _ hp => dominates_swap_last h.heap hp) (mt (h.sinks_iff hwe hei).mpr (hs e hwe))]

theorem drainPasses_iff (h : Drained w f g i rungs) :
    (∀ e, w ≤ e → ¬ DrainPasses (· ≤ ·) i g e) ↔ ∀ e, w ≤ e → Kept f e i (rungs e) := by
  induction i generalizing g rungs with
  | zero => exact iff_of_true (fun _ _ => id) fun _ _ => trivial
  | succ i ih =>
    have hiff : ∀ e, w ≤ e → (¬ Sinks (· ≤ ·) (i + 1) (g ∘ Equiv.swap 0 (i + 1)) 0 e ↔
        (e ≤ i → ¬ Lands (f (i + 1)) ((rungs e).map (Rung.without (i + 1) (f (i + 1)))))) := by
      intro e hwe
      by_cases hei : e ≤ i
      · rw [h.sinks_iff hwe hei, imp_iff_right hei]
      · refine iff_of_true (fun hs => ?_) fun hle => absurd hle hei
        have := (below_of_sinks hs).2 (Nat.succ_pos i)
        omega
    constructor
    · intro hpasses
      have hs := fun e hwe => (not_or.mp (hpasses e hwe)).1
      have hrest := (ih (h.step hs)).mp fun e hwe => (not_or.mp (hpasses e hwe)).2
      exact fun e hwe => ⟨(hiff e hwe).mp (hs e hwe), hrest e hwe⟩
    · intro hkept
      have hs := fun e hwe => (hiff e hwe).mpr (hkept e hwe).1
      have hrest := (ih (h.step hs)).mpr fun e hwe => (hkept e hwe).2
      exact fun e hwe => not_or.mpr ⟨hs e hwe, hrest e hwe⟩

end Drained

/-- Nothing is left that could come down to `e`. -/
theorem kept_of_le (h : i ≤ e) (rungs : List (Rung β)) : Kept f e i rungs := by
  induction i generalizing rungs with
  | zero => trivial
  | succ i ih => exact ⟨fun hei => absurd hei (by omega), ih (by omega) _⟩

/-- In draining the heap that has been built no element comes down to a place from `w` on. -/
theorem not_drainPasses_iff (hn : 0 < n) (hw : n / 2 ≤ w) (h : ∀ e, w ≤ e → e < n → Unreached n f e) :
    (∀ e, w ≤ e → ¬ DrainPasses (· ≤ ·) (n - 1) (heapify (· ≤ ·) n (n / 2) f) e) ↔
      ∀ e, w ≤ e → e < n → Kept f e (n - 1) (ladder n f e (depth e)).tail := by
  have hdrained : Drained w f (heapify (· ≤ ·) n (n / 2) f) (n - 1) fun e =>
      (ladder n f e (depth e)).tail := by
    refine ⟨?_, ?_, ?_⟩
    · rw [Nat.sub_add_cancel hn]
      refine heapify_dominates _ fun p hp c hc hcn => ?_
      rcases hc with hc | hc <;> omega
    · intro k hwk hki
      have hk : k < n := by omega
      refine heapify_eq_of_not_passes ?_
      exact (not_buildPasses_iff hk (hw.trans hwk)).mpr (h k hwk hk)
    · intro e hwe hei
      have he : e < n := by omega
      rw [Nat.sub_add_cancel hn]
      exact way_heapify he (hw.trans hwe) (h e hwe he)
  rw [hdrained.drainPasses_iff]
  refine forall₂_congr fun e _ => ⟨fun hk _ => hk, fun hk => ?_⟩
  by_cases he : e < n
  · exact hk he
  · exact kept_of_le (by omega) _

end Ladder

end BinaryHeap
