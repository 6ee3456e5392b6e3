import MgRaffle.Library.Ring
import MgRaffle.Library.Stepping

open LinkRing Stepping

namespace MgRaffle.Core

variable {ι : Type*} [DecidableEq ι]

def initList (m : Links ι) (l : ι) : Links ι :=
  let m := m.setNext l l
  m.setPrev l l

def insertListFront (m : Links ι) (e l : ι) : Links ι :=
  let m := m.setNext e l
  let m := m.setPrev e (m.prev l)
  let m := m.setNext (m.prev l) e
  m.setPrev l e

def insertListEnd (m : Links ι) (e l : ι) : Links ι :=
  let m := m.setNext e (m.next l)
  let m := m.setPrev e l
  let m := m.setPrev (m.next l) e
  m.setNext l e

def removeListNode (m : Links ι) (e : ι) (cleanup : Bool) : Links ι :=
  let m := m.setNext (m.prev e) (m.next e)
  let m := m.setPrev (m.next e) (m.prev e)
  if cleanup then initList m e else m

omit [DecidableEq ι] in
def listHead (m : Links ι) (l : ι) : ι := m.next l

omit [DecidableEq ι] in
def listTail (m : Links ι) (l : ι) : ι := m.prev l

/-- `MG_LIST_PUSH_BACK`, `MG_LIST_PUSH_FRONT` and `MG_LIST_DELETE`. -/
inductive ListOp (ι : Type*)
  | pushBack (e : ι)
  | pushFront (e : ι)
  | delete (e : ι) (cleanup : Bool)

/-- The nodes, and the deque that the names of the operations speak of. -/
structure Listing (ι : Type*) where
  nodes : Links ι
  deque : List ι

namespace Listing

def start (m : Links ι) (l : ι) : Listing ι := ⟨initList m l, []⟩

/-- A node that is pushed is not in the list, and one that is deleted is. -/
def step (l : ι) (s : Listing ι) : ListOp ι → Option (Listing ι)
  | .pushBack e =>
    if e ∈ l :: s.deque then none else some ⟨insertListEnd s.nodes e l, s.deque ++ [e]⟩
  | .pushFront e =>
    if e ∈ l :: s.deque then none else some ⟨insertListFront s.nodes e l, e :: s.deque⟩
  | .delete e cleanup =>
    if e ∈ s.deque then some ⟨removeListNode s.nodes e cleanup, s.deque.erase e⟩ else none

/-- The list from its head on is the deque, and from its end back the reverse of it. -/
structure InOrder (l : ι) (s : Listing ι) : Prop where
  forward : Links.walk s.nodes.next l (s.deque.length + 1) (s.nodes.next l) = some s.deque
  backward : Links.walk s.nodes.prev l (s.deque.length + 1) (s.nodes.prev l) = some s.deque.reverse
  head : listHead s.nodes l = s.deque.head?.getD l
  tail : listTail s.nodes l = s.deque.getLast?.getD l

/-- No node is pushed while there is one in the list. -/
def Alone (s : Listing ι) : ListOp ι → Prop
  | .pushBack _ => s.deque = []
  | .pushFront _ => s.deque = []
  | .delete _ _ => True

end Listing

theorem insertListEnd_ring {m : Links ι} {e l : ι} {xs : List ι} (hm : m.Ring l xs)
    (he : e ∉ l :: xs) : (insertListEnd m e l).Ring l (e :: xs) := hm.insertBehind he

theorem insertListFront_ring {m : Links ι} {e l : ι} {xs : List ι} (hm : m.Ring l xs)
    (he : e ∉ l :: xs) : (insertListFront m e l).Ring l (xs ++ [e]) := hm.insertBefore he

theorem removeListNode_ring {m : Links ι} {e l : ι} {us vs : List ι}
    (hm : m.Ring l (us ++ e :: vs)) (cleanup : Bool) :
    (removeListNode m e cleanup).Ring l (us ++ vs) := by
  have hunlink := hm.unlink
  cases cleanup with
  | false => exact hunlink
  | true =>
    have he : e ∉ l :: (us ++ vs) := by
      have hnodup := hm.nodup
      rw [← List.cons_append] at hnodup ⊢
      rw [List.nodup_middle, List.nodup_cons] at hnodup
      exact hnodup.1
    apply hunlink.congr
    · intro a ha
      have hne : a ≠ e := fun heq => he (heq ▸ ha)
      exact Function.update_of_ne hne _ _
    · intro a ha
      have hne : a ≠ e := fun heq => he (heq ▸ ha)
      exact Function.update_of_ne hne _ _

namespace Listing

variable {l : ι} {s t : Listing ι}

/-- `MG_LIST_PUSH_BACK` puts a node at the front and `MG_LIST_PUSH_FRONT` at the end, so that the
list is the deque from its end back. -/
def Reversed (l : ι) (s : Listing ι) : Prop := s.nodes.Ring l s.deque.reverse

theorem reversed_start (m : Links ι) (l : ι) : (start m l).Reversed l := Links.Ring.close m l

theorem reversed_step (hs : s.Reversed l) {op : ListOp ι} (ht : step l s op = some t) :
    t.Reversed l := by
  unfold Reversed at hs ⊢
  cases op with
  | pushBack e =>
    simp only [step, Option.ite_none_left_eq_some, Option.some.injEq] at ht
    obtain ⟨he, rfl⟩ := ht
    rw [List.reverse_append, List.reverse_singleton]
    exact insertListEnd_ring hs (by simpa using he)
  | pushFront e =>
    simp only [step, Option.ite_none_left_eq_some, Option.some.injEq] at ht
    obtain ⟨he, rfl⟩ := ht
    rw [List.reverse_cons]
    exact insertListFront_ring hs (by simpa using he)
  | delete e cleanup =>
    simp only [step, Option.ite_none_right_eq_some, Option.some.injEq] at ht
    obtain ⟨he, rfl⟩ := ht
    obtain ⟨us, vs, hus, hdeque, herase⟩ := List.exists_erase_eq he
    rw [hdeque, List.reverse_append, List.reverse_cons, List.append_assoc] at hs
    rw [herase, List.reverse_append]
    exact removeListNode_ring hs cleanup

omit [DecidableEq ι] in
theorem Reversed.nodup (hs : s.Reversed l) : s.deque.Nodup :=
  List.nodup_reverse.mp (List.nodup_cons.mp (Links.Ring.nodup hs)).2

/-- A deque without repetitions is its own reverse only if it has one node at most. -/
theorem inOrder_iff (hs : s.Reversed l) : s.InOrder l ↔ s.deque.length ≤ 1 := by
  constructor
  · intro h
    have hself : s.deque.reverse = s.deque := by
      have hwalk := hs.walk_next (n := s.deque.length + 1) (by rw [List.length_reverse]; omega)
      rw [h.forward, Option.some.injEq] at hwalk
      exact hwalk.symm
    match hdeque : s.deque with
    | [] => exact Nat.zero_le 1
    | [a] => exact le_rfl
    | a :: b :: rest =>
      have hnodup := hs.nodup
      have hends := congrArg List.head? hself
      rw [hdeque] at hnodup hends
      rw [List.head?_reverse, List.getLast?_cons_cons, List.head?_cons] at hends
      have hmem : a ∈ b :: rest := List.mem_of_getLast? hends
      exact absurd hmem (List.nodup_cons.mp hnodup).1
  · intro h
    have hself : s.deque.reverse = s.deque := by
      match hdeque : s.deque with
      | [] => rfl
      | [a] => rfl
      | a :: b :: rest =>
        rw [hdeque, List.length_cons, List.length_cons] at h
        omega
    rw [Reversed, hself] at hs
    exact ⟨hs.walk_next (Nat.lt_succ_self _), hs.walk_prev (Nat.lt_succ_self _), hs.next_head,
      hs.prev_head⟩

/-- A step from a list with one node at most leads to such a list exactly if it pushes no second
node. -/
theorem length_step {op : ListOp ι} (hlen : s.deque.length ≤ 1) (ht : step l s op = some t) :
    t.deque.length ≤ 1 ↔ s.Alone op := by
  cases op with
  | pushBack e =>
    simp only [step, Option.ite_none_left_eq_some, Option.some.injEq] at ht
    obtain ⟨-, rfl⟩ := ht
    simp [Alone]
  | pushFront e =>
    simp only [step, Option.ite_none_left_eq_some, Option.some.injEq] at ht
    obtain ⟨-, rfl⟩ := ht
    simp [Alone]
  | delete e cleanup =>
    simp only [step, Option.ite_none_right_eq_some, Option.some.injEq] at ht
    obtain ⟨-, rfl⟩ := ht
    have herase : (s.deque.erase e).length ≤ s.deque.length := List.erase_sublist.length_le
    exact iff_of_true (by dsimp only; omega) trivial

/-- The list keeps the order of the deque exactly as long as it has one node at most. -/
theorem list_inOrder_iff (m : Links ι) (l : ι) (ops : List (ListOp ι)) :
    Throughout (step l) (InOrder l) (start m l) ops ↔ EachStep (step l) Alone (start m l) ops := by
  have hstart := reversed_start m l
  refine throughout_iff (Reversed l) ?_ ?_ hstart ((inOrder_iff hstart).mpr (Nat.zero_le 1))
  · intro s op t hs ht
    exact reversed_step hs ht
  · intro s op t hs hP ht
    rw [inOrder_iff (reversed_step hs ht)]
    exact length_step ((inOrder_iff hs).mp hP) ht

/-- Two nodes pushed at the back are met in the wrong order. -/
theorem two_pushed_back : ¬ ∀ (m : Links ℕ) (l : ℕ) (ops : List (ListOp ℕ)),
    Throughout (step l) (InOrder l) (start m l) ops := by
  intro h
  have hrun := h ⟨id, id⟩ 0 [.pushBack 1, .pushBack 2]
  have hwalk := ((hrun.2 _ rfl).2 _ rfl).forward
  revert hwalk
  decide

end Listing

section Frame

variable {κ : Type*} [DecidableEq κ] {m m' : Links ι} {heads : κ → ι} {members : κ → List ι}
  {k : κ} {e : ι} {xs : List ι}

omit [DecidableEq ι] [DecidableEq κ] in
/-- Any number of lists in one memory, none of which shares a node with another. -/
structure Lists (m : Links ι) (heads : κ → ι) (members : κ → List ι) : Prop where
  ring : ∀ k, m.Ring (heads k) (members k)
  apart : ∀ k k', k ≠ k' → (heads k :: members k).Disjoint (heads k' :: members k')

omit [DecidableEq ι] [DecidableEq κ] in
/-- In terms of the pointers: following `_next` one comes round each list, whose nodes are different,
and each node is the neighbour of its neighbours. -/
theorem lists_iff : Lists m heads members ↔
    (∀ k, (heads k :: members k).Nodup ∧
      (heads k :: (members k ++ [heads k])).IsChain (fun a b => m.next a = b) ∧
      ∀ a ∈ heads k :: members k, m.prev (m.next a) = a ∧ m.next (m.prev a) = a) ∧
    ∀ k k', k ≠ k' → (heads k :: members k).Disjoint (heads k' :: members k') := by
  simp only [← Links.ring_iff]
  exact ⟨fun h => ⟨h.ring, h.apart⟩, fun h => ⟨h.1, h.2⟩⟩

omit [DecidableEq ι] in
/-- One list changes, by nodes that are in no other list. -/
theorem Lists.change (h : Lists m heads members) (hring : m'.Ring (heads k) xs)
    (hothers : ∀ k', k' ≠ k → m'.Ring (heads k') (members k'))
    (hapart : ∀ k', k' ≠ k → (heads k :: xs).Disjoint (heads k' :: members k')) :
    Lists m' heads (Function.update members k xs) := by
  constructor
  · intro k'
    by_cases hk : k' = k
    · subst hk
      rwa [Function.update_self]
    · rw [Function.update_of_ne hk]
      exact hothers k' hk
  · intro i j hij
    by_cases hi : i = k
    · subst hi
      rw [Function.update_self, Function.update_of_ne (Ne.symm hij)]
      exact hapart j (Ne.symm hij)
    · rw [Function.update_of_ne hi]
      by_cases hj : j = k
      · subst hj
        rw [Function.update_self]
        exact (hapart i hi).symm
      · rw [Function.update_of_ne hj]
        exact h.apart i j hij

/-- A node that is in none of the lists goes to the end of one of them. -/
theorem Lists.insertListFront (h : Lists m heads members) (k : κ)
    (he : ∀ k', e ∉ heads k' :: members k') :
    Lists (insertListFront m e (heads k)) heads
      (Function.update members k (members k ++ [e])) := by
  apply h.change
  · exact insertListFront_ring (h.ring k) (he k)
  · intro k' hk
    exact (h.ring k').insertBefore_of_disjoint (h.ring k) (he k') (h.apart k k' (Ne.symm hk))
  · intro k' hk a ha ha'
    rw [← List.cons_append, List.mem_append, List.mem_singleton] at ha
    rcases ha with ha | rfl
    · exact h.apart k k' (Ne.symm hk) ha ha'
    · exact he k' ha'

theorem Lists.insertListEnd (h : Lists m heads members) (k : κ)
    (he : ∀ k', e ∉ heads k' :: members k') :
    Lists (insertListEnd m e (heads k)) heads (Function.update members k (e :: members k)) := by
  apply h.change
  · exact insertListEnd_ring (h.ring k) (he k)
  · intro k' hk
    exact (h.ring k').insertBehind_of_disjoint (h.ring k) (he k') (h.apart k k' (Ne.symm hk))
  · intro k' hk a ha ha'
    rw [List.mem_cons, List.mem_cons] at ha
    rcases ha with rfl | rfl | ha
    · exact h.apart k k' (Ne.symm hk) (List.mem_cons_self ..) ha'
    · exact he k' ha'
    · exact h.apart k k' (Ne.symm hk) (List.mem_cons_of_mem _ ha) ha'

theorem removeListNode_of_disjoint {h k : ι} {ys : List ι} (hk : m.Ring k ys) (hm : m.Ring h xs)
    (he : e ∈ h :: xs) (hapart : (h :: xs).Disjoint (k :: ys)) (cleanup : Bool) :
    (removeListNode m e cleanup).Ring k ys := by
  have hunlink := hk.unlink_of_disjoint hm he hapart
  cases cleanup with
  | false => exact hunlink
  | true =>
    apply hunlink.congr
    · intro a ha
      have hne : a ≠ e := fun heq => hapart he (heq ▸ ha)
      exact Function.update_of_ne hne _ _
    · intro a ha
      have hne : a ≠ e := fun heq => hapart he (heq ▸ ha)
      exact Function.update_of_ne hne _ _

theorem Lists.removeListNode (h : Lists m heads members) (he : e ∈ members k) (cleanup : Bool) :
    Lists (removeListNode m e cleanup) heads
      (Function.update members k ((members k).erase e)) := by
  have hmem := List.mem_cons_of_mem (heads k) he
  apply h.change
  · obtain ⟨us, vs, -, hmembers, herase⟩ := List.exists_erase_eq he
    have hring := h.ring k
    rw [hmembers] at hring
    rw [herase]
    exact removeListNode_ring hring cleanup
  · intro k' hk
    exact removeListNode_of_disjoint (h.ring k') (h.ring k) hmem (h.apart k k' (Ne.symm hk)) cleanup
  · intro k' hk a ha ha'
    refine h.apart k k' (Ne.symm hk) ?_ ha'
    rw [List.mem_cons] at ha ⊢
    exact ha.imp_right List.mem_of_mem_erase

/-- An operation on one list inserts or removes its node there, and leaves the order of the others
and all other lists as they were. -/
theorem lists_kept (h : Lists m heads members) (k : κ) :
    (∀ e, (∀ k', e ∉ heads k' :: members k') →
      Lists (insertListFront m e (heads k)) heads
        (Function.update members k (members k ++ [e])) ∧
      Lists (insertListEnd m e (heads k)) heads (Function.update members k (e :: members k))) ∧
    ∀ e ∈ members k, ∀ cleanup,
      Lists (removeListNode m e cleanup) heads
        (Function.update members k ((members k).erase e)) ∧
      (cleanup = true → (removeListNode m e cleanup).Ring e []) := by
  refine ⟨fun e he => ⟨h.insertListFront k he, h.insertListEnd k he⟩, fun e he cleanup =>
    ⟨h.removeListNode he cleanup, ?_⟩⟩
  rintro rfl
  exact Links.Ring.close _ e

/-- The list of `0` with the nodes `2` and `3`, and that of `1` with the node `4`. -/
def twoLists : Links ℕ where
  next a := [2, 4, 3, 0, 1].getD a a
  prev a := [3, 4, 0, 2, 1].getD a a

/-- A node comes to the end of the first list, or its first node is removed and cleaned up. -/
theorem lists_kept_two :
    Lists (Core.insertListFront twoLists 5 0) (fun b : Bool => cond b 0 1)
      (fun b => cond b [2, 3, 5] [4]) ∧
    Lists (Core.removeListNode twoLists 2 true) (fun b : Bool => cond b 0 1)
      (fun b => cond b [3] [4]) ∧
    (Core.removeListNode twoLists 2 true).Ring 2 [] := by
  have htwo : Lists twoLists (fun b : Bool => cond b 0 1) fun b => cond b [2, 3] [4] := by
    constructor
    · rintro (_ | _)
      · exact ⟨by simp [Links.Linked, twoLists], by decide⟩
      · exact ⟨by simp [Links.Linked, twoLists], by decide⟩
    · rintro (_ | _) (_ | _) hne <;> simp at hne ⊢
  have hupdate : ∀ xs : List ℕ, Function.update (fun b : Bool => cond b [2, 3] [4]) true xs =
      fun b => cond b xs [4] := by
    intro xs
    funext b
    cases b <;> rfl
  obtain ⟨hinsert, hremove⟩ := lists_kept htwo true
  have hfront := (hinsert 5 (by rintro (_ | _) <;> decide)).1
  have hdelete := hremove 2 (by decide) true
  rw [hupdate] at hfront hdelete
  exact ⟨hfront, hdelete.1, hdelete.2 rfl⟩

end Frame

end MgRaffle.Core
