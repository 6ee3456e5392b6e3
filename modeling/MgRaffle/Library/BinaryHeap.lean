import MgRaffle.Library.Permuted

namespace BinaryHeap

/-- The binary tree that an array holds level by level. -/
def IsChild (p c : ℕ) : Prop := c = 2 * p + 1 ∨ c = 2 * p + 2

/-- `k` lies in the subtree whose root is `d`. -/
inductive Below (d : ℕ) : ℕ → Prop
  | root : Below d d
  | child {p c : ℕ} (hp : Below d p) (hc : IsChild p c) : Below d c

theorem IsChild.lt {p c : ℕ} (h : IsChild p c) : p < c := by
  rcases h with h | h <;> omega

theorem IsChild.parent_eq {p q c : ℕ} (hp : IsChild p c) (hq : IsChild q c) : p = q := by
  rcases hp with hp | hp <;> rcases hq with hq | hq <;> omega

theorem IsChild.below {p c : ℕ} (h : IsChild p c) : Below p c := .child .root h

namespace Below

variable {d e k p c : ℕ}

theorem le (h : Below d k) : d ≤ k := by
  induction h with
  | root => exact le_rfl
  | child _ hc ih => exact ih.trans hc.lt.le

theorem trans (hde : Below d e) (hek : Below e k) : Below d k := by
  induction hek with
  | root => exact hde
  | child _ hc ih => exact .child ih hc

theorem parent (h : Below d c) (hc : IsChild p c) (hne : c ≠ d) : Below d p := by
  cases h with
  | root => exact absurd rfl hne
  | child hq hqc => rwa [hc.parent_eq hqc]

/-- What lies below the root lies below one of its children. -/
theorem exists_child (h : Below d k) (hne : k ≠ d) : ∃ c, IsChild d c ∧ Below c k := by
  induction h with
  | root => exact absurd rfl hne
  | @child p k hp hk ih =>
    by_cases hpd : p = d
    · subst hpd
      exact ⟨k, hk, .root⟩
    · obtain ⟨c, hc, hcp⟩ := ih hpd
      exact ⟨c, hc, .child hcp hk⟩

theorem iff_parent (d k : ℕ) : Below d (k + 1) ↔ k + 1 = d ∨ Below d (k / 2) := by
  have hparent : IsChild (k / 2) (k + 1) := by
    unfold IsChild
    omega
  constructor
  · intro h
    by_cases hkd : k + 1 = d
    · exact .inl hkd
    · exact .inr (h.parent hparent hkd)
  · rintro (rfl | h)
    · exact .root
    · exact .child h hparent

instance decidable (d k : ℕ) : Decidable (Below d k) :=
  match k with
  | 0 => decidable_of_iff (d = 0) ⟨fun h => h ▸ .root, fun h => Nat.le_zero.mp h.le⟩
  | k + 1 =>
    haveI := decidable d (k / 2)
    decidable_of_iff _ (iff_parent d k).symm
termination_by k

/-- The subtrees of two children have nothing in common. -/
theorem eq_of_children {c' : ℕ} (hc : IsChild d c) (hc' : IsChild d c') (hk : Below c k)
    (hk' : Below c' k) : c = c' := by
  induction hk with
  | root =>
    have hle := hk'.le
    by_contra hne
    have hd : Below c' d := hk'.parent hc hne
    have := hd.le
    have := hc'.lt
    omega
  | @child p k hp hpk ih =>
    by_cases hkc' : k = c'
    · subst hkc'
      have := hp.le
      have hpd : p = d := hpk.parent_eq hc'
      have := hc.lt
      omega
    · exact ih (hk'.parent hpk hkc')

end Below

variable {α : Type*} (r : α → α → Prop)

/-- No child of `p` among the first `n` is above `p`; `r x y` says that `x` is not above `y`. -/
def Dominates (n : ℕ) (a : ℕ → α) (p : ℕ) : Prop := ∀ c, IsChild p c → c < n → r (a c) (a p)

theorem Dominates.congr {n p : ℕ} {a b : ℕ → α} (h : Dominates r n a p) (hp : b p = a p)
    (hc : ∀ c, IsChild p c → b c = a c) : Dominates r n b p := by
  intro c hpc hcn
  rw [hp, hc c hpc]
  exact h c hpc hcn

/-- The root of a heap is the greatest of it. -/
theorem le_root [Std.Refl r] [IsTrans α r] {n d k : ℕ} {a : ℕ → α}
    (h : ∀ p, Below d p → Dominates r n a p) (hk : Below d k) (hkn : k < n) : r (a k) (a d) := by
  induction hk with
  | root => exact Std.Refl.refl (a d)
  | @child p c hp hc ih =>
    have hpn : p < n := hc.lt.trans hkn
    exact IsTrans.trans _ _ _ (h p hp c hc hkn) (ih hpn)

section Sift

variable [DecidableRel r]

/-- The greater child of `d` among the first `n`, the left one of two equal ones. -/
def greater (n : ℕ) (a : ℕ → α) (d : ℕ) : ℕ :=
  if 2 * d + 2 < n ∧ ¬ r (a (2 * d + 2)) (a (2 * d + 1)) then 2 * d + 2 else 2 * d + 1

/-- There is a child of `d`, and the greater one is no smaller than `d`. -/
def Sinking (n : ℕ) (a : ℕ → α) (d : ℕ) : Prop :=
  2 * d + 1 < n ∧ r (a d) (a (greater r n a d))

instance (n : ℕ) (a : ℕ → α) (d : ℕ) : Decidable (Sinking r n a d) :=
  inferInstanceAs (Decidable (_ ∧ _))

variable {r} {n d e : ℕ} {a : ℕ → α}

theorem greater_isChild (n : ℕ) (a : ℕ → α) (d : ℕ) : IsChild d (greater r n a d) := by
  unfold greater
  split
  · exact .inr rfl
  · exact .inl rfl

theorem greater_lt (h : 2 * d + 1 < n) : greater r n a d < n := by
  unfold greater
  split
  · rename_i hright
    exact hright.1
  · exact h

/-- The greater child is no smaller than its sibling. -/
theorem le_greater [Std.Total r] {c : ℕ} (hc : IsChild d c) (hcn : c < n) :
    r (a c) (a (greater r n a d)) := by
  unfold greater
  split
  · rename_i hright
    rcases hc with rfl | rfl
    · exact (Std.Total.total _ _).resolve_left hright.2
    · exact Std.Refl.refl _
  · rename_i hleft
    rcases hc with rfl | rfl
    · exact Std.Refl.refl _
    · by_contra h
      exact hleft ⟨hcn, h⟩

variable (r)

/-- Lets the element at `d` sink below its greater children as long as they are no smaller. -/
def sift (n : ℕ) (a : ℕ → α) (d : ℕ) : ℕ → α :=
  if Sinking r n a d then sift n (a ∘ Equiv.swap d (greater r n a d)) (greater r n a d) else a
termination_by n - d
decreasing_by
  rename_i h
  have := (greater_isChild (r := r) n a d).lt
  have := h.1
  omega

/-- The element at `d` passes the index `e` as it sinks. -/
inductive Sinks (n : ℕ) : (ℕ → α) → ℕ → ℕ → Prop
  | here {a : ℕ → α} {d : ℕ} : Sinks n a d d
  | deeper {a : ℕ → α} {d e : ℕ} (h : Sinking r n a d)
      (he : Sinks n (a ∘ Equiv.swap d (greater r n a d)) (greater r n a d) e) : Sinks n a d e

variable {r}

theorem sift_of_sinking (h : Sinking r n a d) :
    sift r n a d = sift r n (a ∘ Equiv.swap d (greater r n a d)) (greater r n a d) := by
  rw [sift, if_pos h]

theorem sift_of_not_sinking (h : ¬ Sinking r n a d) : sift r n a d = a := by
  rw [sift, if_neg h]

theorem sinks_of_not_sinking (h : ¬ Sinking r n a d) (he : Sinks r n a d e) : e = d := by
  cases he with
  | here => rfl
  | deeper hsink _ => exact absurd hsink h

/-- The element stays in the subtree, and among the first `n` if it is there. -/
theorem below_of_sinks (h : Sinks r n a d e) : Below d e ∧ (d < n → e < n) := by
  induction h with
  | here => exact ⟨.root, id⟩
  | deeper hsink _ ih =>
    exact ⟨(greater_isChild (r := r) _ _ _).below.trans ih.1, fun _ => ih.2 (greater_lt hsink.1)⟩

/-- What is below a root that is swapped with one of its children, and is neither of them. -/
theorem swap_apply_of_below {c k : ℕ} (hc : IsChild d c) (hk : Below c k) (hne : k ≠ c) :
    (a ∘ Equiv.swap d c) k = a k := by
  have := hk.le
  have := hc.lt
  rw [Function.comp_apply, Equiv.swap_apply_of_ne_of_ne (by omega) hne]

/-- Only the subtree is rearranged. -/
theorem sift_permuted (n : ℕ) (a : ℕ → α) (d : ℕ) :
    Permuted {k | Below d k ∧ k < n} a (sift r n a d) := by
  induction a, d using sift.induct r n with
  | case1 a d hsink ih =>
    have hc := greater_isChild (r := r) n a d
    have hcn := greater_lt (r := r) (a := a) hsink.1
    have hswap : Permuted {k | Below d k ∧ k < n} a (a ∘ Equiv.swap d (greater r n a d)) :=
      .swap a ⟨.root, hc.lt.trans hcn⟩ ⟨hc.below, hcn⟩
    rw [sift_of_sinking hsink]
    refine hswap.trans (ih.mono ?_)
    rintro k ⟨hk, hkn⟩
    exact ⟨hc.below.trans hk, hkn⟩
  | case2 a d hsink =>
    rw [sift_of_not_sinking hsink]
    exact .refl _ a

theorem sift_of_not_below {k : ℕ} (hk : ¬ Below d k) : sift r n a d k = a k :=
  (sift_permuted n a d).eq_of_notMem fun h => hk h.1

section Restoring

variable {c : ℕ}

omit [DecidableRel r] in
/-- Below the child that is swapped with the root nothing has changed. -/
theorem dominates_swap (hc : IsChild d c) (h : ∀ p, Below d p → p ≠ d → Dominates r n a p)
    {p : ℕ} (hp : Below c p) (hpc : p ≠ c) : Dominates r n (a ∘ Equiv.swap d c) p := by
  have hcp := hp.le
  have hdc := hc.lt
  refine (h p (hc.below.trans hp) (by omega)).congr r (swap_apply_of_below hc hp hpc) ?_
  intro k hk
  have hpk := hk.lt
  exact swap_apply_of_below hc (.child hp hk) (by omega)

/-- The subtrees of the other children stay as they were. -/
theorem sift_swap_of_sibling {s k : ℕ} (hc : IsChild d c) (hs : IsChild d s) (hsc : s ≠ c)
    (hk : Below s k) : sift r n (a ∘ Equiv.swap d c) c k = a k := by
  have hkc : ¬ Below c k := fun hkc => hsc (Below.eq_of_children hs hc hk hkc)
  have hsk := hk.le
  have hds := hs.lt
  have hne : k ≠ c := by
    rintro rfl
    exact hkc .root
  rw [sift_of_not_below hkc, Function.comp_apply, Equiv.swap_apply_of_ne_of_ne (by omega) hne]

omit [DecidableRel r] in
/-- Nothing in the subtree of the child is above the child, also after the swap. -/
theorem swap_le_of_below [Std.Refl r] [IsTrans α r] {k : ℕ} (hc : IsChild d c)
    (hdc : r (a d) (a c)) (h : ∀ p, Below d p → p ≠ d → Dominates r n a p) (hk : Below c k)
    (hkn : k < n) : r ((a ∘ Equiv.swap d c) k) (a c) := by
  by_cases hkc : k = c
  · rw [hkc, Function.comp_apply, Equiv.swap_apply_right]
    exact hdc
  · rw [swap_apply_of_below hc hk hkc]
    refine le_root r ?_ hk hkn
    intro p hp
    have hcp := hp.le
    have hlt := hc.lt
    exact h p (hc.below.trans hp) (by omega)

/-- A heap but for its root becomes a heap. -/
theorem sift_dominates [Std.Total r] [IsTrans α r]
    (h : ∀ p, Below d p → p ≠ d → Dominates r n a p) :
    ∀ p, Below d p → Dominates r n (sift r n a d) p := by
  induction a, d using sift.induct r n with
  | case1 a d hsink ih =>
    have hc := greater_isChild (r := r) n a d
    have hcn := greater_lt (r := r) (a := a) hsink.1
    have hmax := fun k => le_greater (r := r) (a := a) (n := n) (d := d) (c := k)
    have hdc := hsink.2
    rw [sift_of_sinking hsink]
    generalize greater r n a d = c at *
    have hbelow := ih fun p hp hpc => dominates_swap hc h hp hpc
    have hroot : sift r n (a ∘ Equiv.swap d c) c d = a c := by
      have hnot : ¬ Below c d := fun hd => absurd hd.le hc.lt.not_ge
      rw [sift_of_not_below hnot, Function.comp_apply, Equiv.swap_apply_left]
    intro p hp
    by_cases hpd : p = d
    · subst hpd
      intro k hk hkn
      rw [hroot]
      by_cases hkc : k = c
      · -- whatever has come to the top of the subtree was in it before
        subst hkc
        have hperm := sift_permuted (r := r) n (a ∘ Equiv.swap p k) k
        exact hperm.forall_of_forall (P := fun x => r x (a k))
          (fun j hj => swap_le_of_below hc hdc h hj.1 hj.2) k ⟨.root, hcn⟩
      · rw [sift_swap_of_sibling hc hk hkc .root]
        exact hmax k hk hkn
    · obtain ⟨s, hs, hsp⟩ := hp.exists_child hpd
      by_cases hsc : s = c
      · subst hsc
        exact hbelow p hsp
      · refine (h p hp hpd).congr r (sift_swap_of_sibling hc hs hsc hsp) ?_
        intro k hk
        exact sift_swap_of_sibling hc hs hsc (.child hsp hk)
  | case2 a d hsink =>
    rw [sift_of_not_sinking hsink]
    intro p hp
    by_cases hpd : p = d
    · subst hpd
      intro c hc hcn
      have hchild : 2 * p + 1 < n := by
        rcases hc with hc | hc <;> omega
      have hnot : ¬ r (a p) (a (greater r n a p)) := fun hr => hsink ⟨hchild, hr⟩
      exact IsTrans.trans _ _ _ (le_greater hc hcn) ((Std.Total.total _ _).resolve_left hnot)
    · exact h p hp hpd

end Restoring

end Sift

section Sorting

variable [DecidableRel r]

/-- Sifts the first `i` indices, the last one first. -/
def heapify (n : ℕ) : ℕ → (ℕ → α) → ℕ → α
  | 0, a => a
  | i + 1, a => heapify n i (sift r n a i)

/-- Takes the root of a heap of `i + 1` elements to its end, and goes on with those before it. -/
def drain : ℕ → (ℕ → α) → ℕ → α
  | 0, a => a
  | i + 1, a => drain i (sift r (i + 1) (a ∘ Equiv.swap 0 (i + 1)) 0)

def sort (n : ℕ) (a : ℕ → α) : ℕ → α := drain r (n - 1) (heapify r n (n / 2) a)

variable {r} {n : ℕ} {a : ℕ → α}

theorem sift_permuted_first (n : ℕ) (a : ℕ → α) (d : ℕ) :
    Permuted {k | k < n} a (sift r n a d) :=
  (sift_permuted n a d).mono fun _ hk => hk.2

theorem heapify_permuted (n i : ℕ) (a : ℕ → α) : Permuted {k | k < n} a (heapify r n i a) := by
  induction i generalizing a with
  | zero => exact .refl _ a
  | succ i ih => exact (sift_permuted_first n a i).trans (ih _)

theorem drained_permuted (i : ℕ) (a : ℕ → α) :
    Permuted {k | k ≤ i + 1} a (sift r (i + 1) (a ∘ Equiv.swap 0 (i + 1)) 0) := by
  have hswap : Permuted {k | k ≤ i + 1} a (a ∘ Equiv.swap 0 (i + 1)) :=
    .swap a (Nat.zero_le _) (le_refl (i + 1))
  refine hswap.trans ((sift_permuted_first (i + 1) _ 0).mono ?_)
  rintro k (hk : k < i + 1)
  exact hk.le

theorem drain_permuted (i : ℕ) (a : ℕ → α) : Permuted {k | k ≤ i} a (drain r i a) := by
  induction i generalizing a with
  | zero => exact .refl _ a
  | succ i ih =>
    refine (drained_permuted i a).trans ((ih _).mono ?_)
    rintro k (hk : k ≤ i)
    exact hk.trans (Nat.le_succ i)

theorem sort_permuted (n : ℕ) (a : ℕ → α) : Permuted {k | k < n} a (sort r n a) := by
  cases n with
  | zero => exact .refl _ a
  | succ n =>
    refine (heapify_permuted (n + 1) ((n + 1) / 2) a).trans ((drain_permuted n _).mono ?_)
    rintro k (hk : k ≤ n)
    exact Nat.lt_succ_of_le hk

variable [Std.Total r] [IsTrans α r]

theorem sift_dominates_from {i : ℕ} (h : ∀ p, i + 1 ≤ p → Dominates r n a p) (p : ℕ) (hp : i ≤ p) :
    Dominates r n (sift r n a i) p := by
  by_cases hbelow : Below i p
  · refine sift_dominates ?_ p hbelow
    intro k hk hki
    have hik := hk.le
    exact h k (by omega)
  · -- a parent outside of the subtree has no child in it
    have hpi : p ≠ i := by
      rintro rfl
      exact hbelow .root
    refine (h p (by omega)).congr r (sift_of_not_below hbelow) ?_
    intro c hc
    refine sift_of_not_below fun hbc => ?_
    have hlt := hc.lt
    exact hbelow (hbc.parent hc (by omega))

theorem heapify_dominates (i : ℕ) (h : ∀ p, i ≤ p → Dominates r n a p) (p : ℕ) :
    Dominates r n (heapify r n i a) p := by
  induction i generalizing a with
  | zero => exact h p (Nat.zero_le p)
  | succ i ih => exact ih (sift_dominates_from h)

omit [DecidableRel r] in
theorem below_zero (k : ℕ) : Below 0 k := by
  induction k using Nat.strongRecOn with
  | ind k ih =>
    by_cases hk : k = 0
    · rw [hk]
      exact .root
    · exact .child (ih ((k - 1) / 2) (by omega)) (by unfold IsChild; omega)

omit [Std.Total r] [IsTrans α r] [DecidableRel r] in
/-- Taking the root to the end leaves a heap of one element less but for its new root. -/
theorem dominates_swap_last {i : ℕ} (h : ∀ p, Dominates r (i + 2) a p) {p : ℕ} (hp : p ≠ 0) :
    Dominates r (i + 1) (a ∘ Equiv.swap 0 (i + 1)) p := by
  intro c hc hci
  have hpc := hc.lt
  rw [Function.comp_apply, Function.comp_apply, Equiv.swap_apply_of_ne_of_ne (by omega) (by omega),
    Equiv.swap_apply_of_ne_of_ne hp (by omega)]
  exact h p c hc (by omega)

theorem dominates_drained {i : ℕ} (h : ∀ p, Dominates r (i + 2) a p) (p : ℕ) :
    Dominates r (i + 1) (sift r (i + 1) (a ∘ Equiv.swap 0 (i + 1)) 0) p :=
  sift_dominates (fun _ _ hq => dominates_swap_last h hq) p (below_zero p)

theorem drain_sorted (i : ℕ) (hheap : ∀ p, Dominates r (i + 1) a p)
    (htail : ∀ p q, p < q → i < q → q < n → r (a p) (a q)) :
    ∀ p q, p < q → q < n → r (drain r i a p) (drain r i a q) := by
  induction i generalizing a with
  | zero => exact fun p q hpq hqn => htail p q hpq (by omega) hqn
  | succ i ih =>
    have hsift := sift_permuted_first (r := r) (i + 1) (a ∘ Equiv.swap 0 (i + 1)) 0
    have hlast : sift r (i + 1) (a ∘ Equiv.swap 0 (i + 1)) 0 (i + 1) = a 0 := by
      rw [hsift.eq_of_notMem (lt_irrefl (i + 1)), Function.comp_apply, Equiv.swap_apply_right]
    have hperm := drained_permuted (r := r) i a
    refine ih (dominates_drained hheap) ?_
    intro p q hpq hiq hqn
    by_cases hq : q = i + 1
    · subst hq
      rw [hlast]
      exact hperm.forall_of_forall (P := fun x => r x (a 0))
        (fun k hk => le_root r (fun p _ => hheap p) (below_zero k) (Nat.lt_succ_of_le hk)) p hpq.le
    · have hafter : ∀ k, i + 1 < k → sift r (i + 1) (a ∘ Equiv.swap 0 (i + 1)) 0 k = a k :=
        fun k hk => hperm.eq_of_notMem hk.not_ge
      rw [hafter q (by omega)]
      by_cases hp : p ≤ i + 1
      · exact hperm.forall_of_forall (P := fun x => r x (a q))
          (fun k (hk : k ≤ i + 1) => htail k q (by omega) (by omega) hqn) p hp
      · rw [hafter p (by omega)]
        exact htail p q hpq (by omega) hqn

theorem sort_sorted (n : ℕ) (a : ℕ → α) (p q : ℕ) (hpq : p < q) (hq : q < n) :
    r (sort r n a p) (sort r n a q) := by
  cases n with
  | zero => omega
  | succ n =>
    refine drain_sorted n ?_ ?_ p q hpq hq
    · refine heapify_dominates ((n + 1) / 2) ?_
      -- the second half has no children
      intro k hk c hc hcn
      rcases hc with rfl | rfl <;> omega
    · intro k l _ hl hln
      omega

end Sorting

end BinaryHeap
