import MgRaffle.Library.CondVar
import MgRaffle.Library.Ledger
import MgRaffle.Library.Stepping

namespace MgRaffle.Utils
open Stepping Waiting Ledger

/-- A call of `get_connection`, by a thread itself or in the constructor of a guard. -/
structure Getter (τ γ : Type*) where
  thread : τ
  guard : Option γ
  timeout : ℤ
  deriving Repr, DecidableEq

/-- `ConnectionPool<Connection>` between the steps that hold `_mtx`. -/
structure ConnectionPool (κ ω : Type*) where
  pool : List κ
  nonEmpty : CondVar ω
  deriving Repr, DecidableEq

/-- `ConnectionGuard<Connection>`, once it is constructed; without a pool it gets no connection. -/
@[ext]
structure ConnectionGuard (κ : Type*) where
  hasPool : Bool
  conn : Option κ
  unpooled : hasPool = false → conn = none
  deriving Repr, DecidableEq

/-- What `get_connection` has returned, and the `_pool` it has left. -/
structure Answer (κ ω : Type*) where
  call : ω
  connection : Option κ
  pool : List κ
  deriving Repr, DecidableEq

/-- The pool with its users: the connections that threads hold by themselves, and the guards. -/
structure Lease (κ τ γ : Type*) where
  connections : ConnectionPool κ (Getter τ γ)
  owned : τ → List κ
  guards : γ → Option (ConnectionGuard κ)
  added : List κ
  answers : List (Answer κ (Getter τ γ))

/-- Where a connection can be. -/
inductive Place (τ γ : Type*)
  | store
  | caller (t : τ)
  | guard (g : γ)
  deriving Repr, DecidableEq

/-- A step that holds the lock, or a wait that ends by itself. -/
inductive LeaseEvent (κ τ γ : Type*)
  | addConnection (t : τ) (c : κ) (notified : Option (Getter τ γ))
  | getConnection (t : τ) (timeout : ℤ)
  | giveBack (t : τ) (c : κ) (notified : Option (Getter τ γ))
  | construct (t : τ) (g : γ) (hasPool : Bool)
  | destroy (t : τ) (g : γ) (notified : Option (Getter τ γ))
  | wake (w : Getter τ γ)
  | timeout (w : Getter τ γ)
  | expire (w : Getter τ γ)
  | resume (w : Getter τ γ) (timedOut : Bool)
  deriving Repr, DecidableEq

namespace ConnectionPool

variable {κ ω : Type*} [DecidableEq ω]

def new : ConnectionPool κ ω := ⟨[], .new⟩

def giveBack (p : ConnectionPool κ ω) (c : κ) (notified : Option ω) :
    Option (ConnectionPool κ ω) :=
  (p.nonEmpty.notifyOne notified).map fun cv => ⟨p.pool ++ [c], cv⟩

end ConnectionPool

namespace Getter

variable {τ γ : Type*}

/-- Who holds the connection that the call returns. -/
def place (w : Getter τ γ) : Place τ γ :=
  match w.guard with
  | none => .caller w.thread
  | some g => .guard g

end Getter

namespace Lease

variable {κ τ γ : Type*}

def start : Lease κ τ γ := ⟨.new, fun _ => [], fun _ => none, [], []⟩

/-- The calls that wait, or have waited and have yet to get the lock back. -/
def calls (s : Lease κ τ γ) : List (Getter τ γ) := s.connections.nonEmpty.calls

/-- The guards whose constructor waits. -/
def constructing (s : Lease κ τ γ) : List γ := s.calls.filterMap Getter.guard

def onCond (s : Lease κ τ γ) (cv : CondVar (Getter τ γ)) : Lease κ τ γ :=
  { s with connections := ⟨s.connections.pool, cv⟩ }

def bag (s : Lease κ τ γ) : Place τ γ → List κ
  | .store => s.connections.pool
  | .caller t => s.owned t
  | .guard g => ((s.guards g).bind ConnectionGuard.conn).toList

@[simp]
theorem bag_store (s : Lease κ τ γ) : s.bag .store = s.connections.pool := rfl

@[simp]
theorem bag_caller (s : Lease κ τ γ) (t : τ) : s.bag (.caller t) = s.owned t := rfl

@[simp]
theorem bag_guard (s : Lease κ τ γ) (g : γ) :
    s.bag (.guard g) = ((s.guards g).bind ConnectionGuard.conn).toList := rfl

variable [DecidableEq τ] [DecidableEq γ]

/-- A blocked thread makes no call. -/
def blocked (s : Lease κ τ γ) (t : τ) : Bool := s.calls.any fun w => w.thread = t

/-- The caller, or the guard under construction, gets what `get_connection` returns. -/
def receive (s : Lease κ τ γ) (w : Getter τ γ) (c : Option κ) : Lease κ τ γ :=
  let s := { s with answers := s.answers ++ [⟨w, c, s.connections.pool⟩] }
  match w.guard, c with
  | some g, c => { s with guards := Function.update s.guards g (some ⟨true, c, nofun⟩) }
  | none, some c => { s with owned := Function.update s.owned w.thread (c :: s.owned w.thread) }
  | none, none => s

/-- `get_connection` from a test of `_pool` on, up to the next wait or the return. After a timeout
the loop is left. -/
def getConnection (s : Lease κ τ γ) (w : Getter τ γ) (timedOut : Bool) : Lease κ τ γ :=
  match s.connections.pool with
  | [] =>
    if timedOut then s.receive w none
    else s.onCond (s.connections.nonEmpty.block w)
  | c :: rest => { s with connections := ⟨rest, s.connections.nonEmpty⟩ }.receive w (some c)

variable [DecidableEq κ]

/-- `none` where the event cannot happen. -/
def step (s : Lease κ τ γ) : LeaseEvent κ τ γ → Option (Lease κ τ γ)
  | .addConnection t c notified =>
    if s.blocked t ∨ c ∈ s.added then none
    else (s.connections.giveBack c notified).map fun p =>
      { s with connections := p, added := c :: s.added }
  | .getConnection t timeout =>
    if s.blocked t then none else some (s.getConnection ⟨t, none, timeout⟩ false)
  | .giveBack t c notified =>
    if s.blocked t ∨ c ∉ s.owned t then none
    else (s.connections.giveBack c notified).map fun p =>
      { s with connections := p, owned := Function.update s.owned t ((s.owned t).erase c) }
  | .construct t g hasPool =>
    if s.blocked t ∨ s.guards g ≠ none ∨ g ∈ s.constructing then none
    else if hasPool then some (s.getConnection ⟨t, some g, 100⟩ false)
    else some { s with guards := Function.update s.guards g (some ⟨false, none, fun _ => rfl⟩) }
  | .destroy t g notified =>
    if s.blocked t then none
    else
      let guards := Function.update s.guards g none
      match s.guards g with
      | none => none
      | some ⟨true, some c, _⟩ =>
        (s.connections.giveBack c notified).map fun p => { s with connections := p, guards := guards }
      | some _ => some { s with guards := guards }
  | .wake w => (s.connections.nonEmpty.wake w false).map s.onCond
  | .timeout w =>
    if w.timeout ≤ 0 then none else (s.connections.nonEmpty.wake w true).map s.onCond
  | .expire w =>
    if w.timeout ≤ 0 then none else (s.connections.nonEmpty.expire w).map s.onCond
  | .resume w timedOut => (s.connections.nonEmpty.resume w timedOut).map fun cv =>
      (s.onCond cv).getConnection w timedOut

/-- A connection that has been added is in `_pool` once and nobody holds it, or it is not in `_pool`
and one holder has it, once. -/
def LeasedOnce (s : Lease κ τ γ) : Prop :=
  ∀ c ∈ s.added, ∃ p, (s.bag p).count c = 1 ∧ ∀ q, q ≠ p → c ∉ s.bag q

/-- Only a call with a time limit has returned `NULL`, and from an empty `_pool`. -/
def NullOnlyIfEmpty (s : Lease κ τ γ) : Prop :=
  ∀ r ∈ s.answers, r.connection = none → 0 < r.call.timeout ∧ r.pool = []

section Receiving

omit [DecidableEq κ]

variable {s : Lease κ τ γ} {w : Getter τ γ}

theorem receive_connections (c : Option κ) : (s.receive w c).connections = s.connections := by
  unfold receive
  cases w.guard <;> cases c <;> rfl

theorem receive_added (c : Option κ) : (s.receive w c).added = s.added := by
  unfold receive
  cases w.guard <;> cases c <;> rfl

theorem receive_answers (c : Option κ) :
    (s.receive w c).answers = s.answers ++ [⟨w, c, s.connections.pool⟩] := by
  unfold receive
  cases w.guard <;> cases c <;> rfl

theorem receive_guards (c : Option κ) {g : γ} (hg : w.guard ≠ some g) :
    (s.receive w c).guards g = s.guards g := by
  unfold receive
  cases hw : w.guard with
  | none => cases c <;> rfl
  | some g' =>
    apply Function.update_of_ne
    intro heq
    rw [hw, heq] at hg
    exact hg rfl

theorem bag_receive_of_ne (c : Option κ) {p : Place τ γ} (hp : p ≠ w.place) :
    (s.receive w c).bag p = s.bag p := by
  cases p with
  | store =>
    unfold bag
    rw [receive_connections]
  | caller t =>
    unfold receive bag
    unfold Getter.place at hp
    cases hw : w.guard with
    | some g => rfl
    | none =>
      rw [hw] at hp
      cases c with
      | none => rfl
      | some c =>
        apply Function.update_of_ne
        intro heq
        exact hp (by rw [heq])
  | guard g =>
    have hg : w.guard ≠ some g := by
      intro heq
      unfold Getter.place at hp
      rw [heq] at hp
      exact hp rfl
    unfold bag
    simp only [receive_guards c hg]

theorem bag_receive_place (hfree : ∀ g, w.guard = some g → s.guards g = none) (c : Option κ) :
    (s.receive w c).bag w.place = c.toList ++ s.bag w.place := by
  unfold receive Getter.place bag
  cases hw : w.guard with
  | some g =>
    have hg := hfree g hw
    simp [hg]
  | none => cases c <;> simp

end Receiving

/-- A guard whose constructor waits is not there yet and waits in one call; only a call with a time
limit runs out of time. -/
structure Waits (s : Lease κ τ γ) : Prop where
  distinct : s.constructing.Nodup
  absent : ∀ g ∈ s.constructing, s.guards g = none
  timed : ∀ w, (w, true) ∈ s.connections.nonEmpty.woken → 0 < w.timeout

/-- The guard that a call is for is not there yet, and no other call is for it. -/
def Pending (s : Lease κ τ γ) (w : Getter τ γ) : Prop :=
  ∀ g, w.guard = some g → s.guards g = none ∧ g ∉ s.constructing

section Waiting

omit [DecidableEq τ] [DecidableEq γ] [DecidableEq κ]

variable {s : Lease κ τ γ} {w : Getter τ γ} {cv : CondVar (Getter τ γ)}

/-- Calls go on waiting while no guard turns up. -/
theorem Waits.of_calls (h : s.Waits) (s' : Lease κ τ γ) (hcalls : s'.calls.Perm s.calls)
    (hguards : ∀ g, s.guards g = none → s'.guards g = none)
    (htimed : ∀ w, (w, true) ∈ s'.connections.nonEmpty.woken → 0 < w.timeout) : s'.Waits where
  distinct := (hcalls.filterMap Getter.guard).nodup_iff.mpr h.distinct
  absent g hg := by
    apply hguards
    exact h.absent g ((hcalls.filterMap Getter.guard).mem_iff.mp hg)
  timed := htimed

theorem Waits.block (h : s.Waits) (hw : s.Pending w) :
    (s.onCond (s.connections.nonEmpty.block w)).Waits := by
  have hperm := (CondVar.calls_block s.connections.nonEmpty w).filterMap Getter.guard
  cases hg : w.guard with
  | none =>
    rw [List.filterMap_cons_none hg] at hperm
    refine ⟨hperm.nodup_iff.mpr h.distinct, ?_, h.timed⟩
    intro g hmem
    exact h.absent g (hperm.mem_iff.mp hmem)
  | some g =>
    rw [List.filterMap_cons_some hg] at hperm
    have hw := hw g hg
    refine ⟨hperm.nodup_iff.mpr (List.nodup_cons.mpr ⟨hw.2, h.distinct⟩), ?_, h.timed⟩
    intro g' hmem
    cases List.mem_cons.mp (hperm.mem_iff.mp hmem) with
    | inl heq =>
      rw [heq]
      exact hw.1
    | inr hold => exact h.absent g' hold

/-- A call that comes out of its wait was the only one for its guard. -/
theorem Waits.unblock (h : s.Waits) (hcalls : s.calls.Perm (w :: cv.calls))
    (htimed : ∀ w, (w, true) ∈ cv.woken → 0 < w.timeout) :
    (s.onCond cv).Waits ∧ (s.onCond cv).Pending w := by
  have hperm := hcalls.filterMap Getter.guard
  cases hg : w.guard with
  | none =>
    rw [List.filterMap_cons_none hg] at hperm
    constructor
    · refine ⟨hperm.nodup_iff.mp h.distinct, ?_, htimed⟩
      intro g hmem
      exact h.absent g (hperm.mem_iff.mpr hmem)
    · intro g hg'
      rw [hg] at hg'
      cases hg'
  | some g =>
    rw [List.filterMap_cons_some hg] at hperm
    have hnodup := List.nodup_cons.mp (hperm.nodup_iff.mp h.distinct)
    constructor
    · refine ⟨hnodup.2, ?_, htimed⟩
      intro g' hmem
      exact h.absent g' (hperm.mem_iff.mpr (List.mem_cons_of_mem g hmem))
    · intro g' hg'
      rw [hg, Option.some.injEq] at hg'
      rw [← hg']
      exact ⟨h.absent g (hperm.mem_iff.mpr List.mem_cons_self), hnodup.1⟩

end Waiting

section Receiving

variable {s : Lease κ τ γ} {w : Getter τ γ} {x : Option κ}

omit [DecidableEq κ]

theorem Waits.receive (h : s.Waits) (hw : s.Pending w) : (s.receive w x).Waits := by
  have hcons : (s.receive w x).constructing = s.constructing := by
    unfold constructing calls
    rw [receive_connections]
  constructor
  · rw [hcons]
    exact h.distinct
  · intro g hg
    rw [hcons] at hg
    rw [receive_guards]
    · exact h.absent g hg
    · intro hwg
      exact (hw g hwg).2 hg
  · rw [receive_connections]
    exact h.timed

/-- An answer is in order if it is a connection, or `_pool` is empty and the call has a limit. -/
theorem nullOnlyIfEmpty_receive (h : s.NullOnlyIfEmpty)
    (hnull : x = none → 0 < w.timeout ∧ s.connections.pool = []) :
    (s.receive w x).NullOnlyIfEmpty := by
  intro r hr
  rw [receive_answers, List.mem_append, List.mem_singleton] at hr
  cases hr with
  | inl hold => exact h r hold
  | inr heq =>
    rw [heq]
    exact hnull

end Receiving

/-- The ledger `at_` says where each added connection is. -/
structure Sound (s : Lease κ τ γ) (at_ : κ → Option (Place τ γ)) : Prop where
  kept : Kept s.bag at_
  added : ∀ c, c ∈ s.added ↔ at_ c ≠ none
  waits : s.Waits
  answers : s.NullOnlyIfEmpty

variable {s s' : Lease κ τ γ} {at_ : κ → Option (Place τ γ)} {w : Getter τ γ} {c : κ}
  {cv : CondVar (Getter τ γ)} {p : ConnectionPool κ (Getter τ γ)} {t : τ} {g : γ}
  {notified : Option (Getter τ γ)}

theorem sound_start : Sound (start : Lease κ τ γ) fun _ => none where
  kept := by
    apply kept_empty
    intro p
    cases p <;> rfl
  added c := by simp [start]
  waits := ⟨List.nodup_nil, nofun, nofun⟩
  answers := nofun

theorem Sound.onCond (h : Sound s at_) (hwaits : (s.onCond cv).Waits) : Sound (s.onCond cv) at_ where
  kept := by
    intro p c
    rw [← h.kept p c]
    cases p <;> rfl
  added := h.added
  waits := hwaits
  answers := h.answers

section Getting

theorem Sound.receive_none (h : Sound s at_) (hw : s.Pending w) (htime : 0 < w.timeout)
    (hempty : s.connections.pool = []) : Sound (s.receive w none) at_ where
  kept := by
    intro p c
    rw [← h.kept p c]
    by_cases hp : p = w.place
    · rw [hp, bag_receive_place fun g hg => (hw g hg).1]
      rfl
    · rw [bag_receive_of_ne none hp]
  added c := by
    rw [receive_added]
    exact h.added c
  waits := h.waits.receive hw
  answers := nullOnlyIfEmpty_receive h.answers fun _ => ⟨htime, hempty⟩

/-- The first connection of `_pool` goes to the caller. -/
theorem Sound.receive_some {rest : List κ} (h : Sound s at_) (hw : s.Pending w)
    (hpool : s.connections.pool = c :: rest) :
    Sound ({ s with connections := ⟨rest, s.connections.nonEmpty⟩ }.receive w (some c))
      (Function.update at_ c (some w.place)) := by
  have hplace : .store ≠ w.place := by
    unfold Getter.place
    cases w.guard <;> exact nofun
  have hw' : Pending { s with connections := ⟨rest, s.connections.nonEmpty⟩ } w := hw
  have hwaits : Waits { s with connections := ⟨rest, s.connections.nonEmpty⟩ } :=
    ⟨h.waits.distinct, h.waits.absent, h.waits.timed⟩
  refine ⟨?_, ?_, hwaits.receive hw', nullOnlyIfEmpty_receive h.answers nofun⟩
  · apply h.kept.move hplace
    · rw [bag_receive_of_ne _ hplace]
      exact .of_eq hpool
    · rw [bag_receive_place fun g hg => (hw' g hg).1]
      cases hp : w.place with
      | store => exact absurd hp.symm hplace
      | _ => exact .refl _
    · intro p hstore hp
      rw [bag_receive_of_ne _ hp]
      cases p with
      | store => exact absurd rfl hstore
      | _ => rfl
  · intro d
    rw [receive_added]
    by_cases hd : d = c
    · have hmem : c ∈ s.bag .store := by
        rw [bag_store, hpool]
        exact List.mem_cons_self
      rw [hd, Function.update_self]
      apply iff_of_true _ nofun
      apply (h.added c).mpr
      rw [h.kept.mem_iff.mp hmem]
      exact nofun
    · rw [Function.update_of_ne hd]
      exact h.added d

theorem Sound.getConnection (h : Sound s at_) (hw : s.Pending w) {timedOut : Bool}
    (htime : timedOut → 0 < w.timeout) : ∃ at', Sound (s.getConnection w timedOut) at' := by
  unfold Lease.getConnection
  cases hpool : s.connections.pool with
  | nil =>
    cases timedOut with
    | true => exact ⟨at_, h.receive_none hw (htime rfl) hpool⟩
    | false => exact ⟨at_, h.onCond (h.waits.block hw)⟩
  | cons c rest => exact ⟨_, h.receive_some hw hpool⟩

end Getting

section Giving

omit [DecidableEq κ] in
theorem pool_giveBack {q : ConnectionPool κ (Getter τ γ)} (h : p.giveBack c notified = some q) :
    q.pool = p.pool ++ [c] ∧ q.nonEmpty.calls.Perm p.nonEmpty.calls ∧
      ∀ w, (w, true) ∈ q.nonEmpty.woken → (w, true) ∈ p.nonEmpty.woken := by
  have hmap := Option.map_eq_some_iff.mp h
  have hspec := hmap.choose_spec
  rw [← hspec.2]
  refine ⟨rfl, CondVar.calls_notifyOne hspec.1, ?_⟩
  intro w hw
  exact (CondVar.mem_woken_notifyOne hspec.1 hw).resolve_left nofun

/-- A connection goes back to `_pool` from where it was. -/
theorem Sound.giveBack (h : Sound s at_) (place : Place τ γ)
    (hp : s.connections.giveBack c notified = some s'.connections)
    (hplace : place ≠ .store) (hheld : (s.bag place).Perm (c :: s'.bag place))
    (helse : ∀ q, q ≠ place → q ≠ .store → s'.bag q = s.bag q)
    (hguards : ∀ g, s.guards g = none → s'.guards g = none)
    (hadded : s'.added = s.added) (hanswers : s'.answers = s.answers) :
    Sound s' (Function.update at_ c (some .store)) := by
  have hpool := pool_giveBack hp
  refine ⟨?_, ?_, ?_, ?_⟩
  · apply h.kept.move hplace hheld
    · rw [bag_store, hpool.1]
      exact List.perm_append_singleton _ _
    · exact helse
  · intro d
    rw [hadded]
    by_cases hd : d = c
    · rw [hd, Function.update_self]
      apply iff_of_true _ nofun
      apply (h.added c).mpr
      rw [h.kept.mem_iff.mp (hheld.mem_iff.mpr List.mem_cons_self)]
      exact nofun
    · rw [Function.update_of_ne hd]
      exact h.added d
  · apply h.waits.of_calls s' hpool.2.1 hguards
    intro w hw
    exact h.waits.timed w (hpool.2.2 w hw)
  · unfold NullOnlyIfEmpty
    rw [hanswers]
    exact h.answers

theorem Sound.addConnection (h : Sound s at_) (hc : c ∉ s.added)
    (hp : s.connections.giveBack c notified = some p) :
    Sound { s with connections := p, added := c :: s.added }
      (Function.update at_ c (some .store)) := by
  have hpool := pool_giveBack hp
  have hnone : at_ c = none := by
    by_contra hsome
    exact hc ((h.added c).mpr hsome)
  refine ⟨?_, ?_, ?_, h.answers⟩
  · apply h.kept.add hnone
    · rw [bag_store, hpool.1]
      exact List.perm_append_singleton _ _
    · intro q hq
      cases q with
      | store => exact absurd rfl hq
      | _ => rfl
  · intro d
    by_cases hd : d = c
    · rw [hd, Function.update_self]
      exact iff_of_true List.mem_cons_self nofun
    · rw [Function.update_of_ne hd, List.mem_cons, or_iff_right hd]
      exact h.added d
  · apply h.waits.of_calls { s with connections := p, added := c :: s.added } hpool.2.1
      fun _ hg => hg
    intro w hw
    exact h.waits.timed w (hpool.2.2 w hw)

theorem Sound.giveBack_caller (h : Sound s at_) (hc : c ∈ s.owned t)
    (hp : s.connections.giveBack c notified = some p) :
    Sound { s with connections := p, owned := Function.update s.owned t ((s.owned t).erase c) }
      (Function.update at_ c (some .store)) := by
  apply h.giveBack (.caller t) hp nofun
  · simp only [bag_caller, Function.update_self]
    exact List.perm_cons_erase hc
  · intro q hq hstore
    cases q with
    | store => exact absurd rfl hstore
    | guard g => rfl
    | caller u =>
      apply Function.update_of_ne
      intro heq
      exact hq (by rw [heq])
  · exact fun _ hg => hg
  · rfl
  · rfl

omit [DecidableEq τ] [DecidableEq κ] in
theorem bag_guard_update {v : Option (ConnectionGuard κ)} :
    bag { s with guards := Function.update s.guards g v } (.guard g) =
      (v.bind ConnectionGuard.conn).toList := by
  simp only [bag_guard, Function.update_self]

omit [DecidableEq τ] [DecidableEq κ] in
theorem bag_guard_update_of_ne {v : Option (ConnectionGuard κ)} {q : Place τ γ}
    (hq : q ≠ .guard g) : bag { s with guards := Function.update s.guards g v } q = s.bag q := by
  cases q with
  | guard g' =>
    have hne : g' ≠ g := by
      intro heq
      exact hq (by rw [heq])
    simp only [bag_guard, Function.update_of_ne hne]
  | _ => rfl

omit [DecidableEq τ] [DecidableEq κ] in
theorem guards_update_none {g' : γ} (h : s.guards g' = none) : Function.update s.guards g none g' = none := by
  by_cases hg : g' = g
  · rw [hg, Function.update_self]
  · rw [Function.update_of_ne hg, h]

theorem Sound.giveBack_guard (h : Sound s at_) {v : ConnectionGuard κ} (hg : s.guards g = some v)
    (hc : v.conn = some c)
    (hp : s.connections.giveBack c notified = some p) :
    Sound { s with connections := p, guards := Function.update s.guards g none }
      (Function.update at_ c (some .store)) := by
  apply h.giveBack (.guard g) hp nofun
  · have hbag : s.bag (.guard g) = [c] := by
      rw [bag_guard, hg, Option.bind_some, hc]
      rfl
    rw [hbag, bag_guard_update (s := { s with connections := p })]
    exact .refl _
  · intro q hq hstore
    rw [bag_guard_update_of_ne (s := { s with connections := p }) hq]
    cases q with
    | store => exact absurd rfl hstore
    | _ => rfl
  · intro g' hnone
    exact guards_update_none hnone
  · rfl
  · rfl

/-- A guard turns up or goes, and holds no connection. -/
theorem Sound.guards {v : Option (ConnectionGuard κ)} (h : Sound s at_)
    (hold : (s.guards g).bind ConnectionGuard.conn = none) (hv : v.bind ConnectionGuard.conn = none)
    (hcons : v = none ∨ g ∉ s.constructing) :
    Sound { s with guards := Function.update s.guards g v } at_ := by
  refine ⟨?_, h.added, ⟨h.waits.distinct, ?_, h.waits.timed⟩, h.answers⟩
  · intro q c
    rw [← h.kept q c]
    by_cases hq : q = .guard g
    · rw [hq, bag_guard_update, hv, bag_guard, hold]
    · rw [bag_guard_update_of_ne hq]
  · intro g' hg'
    have hnone := h.waits.absent g' hg'
    by_cases heq : g' = g
    · rw [heq] at hg' ⊢
      rw [hcons.resolve_right fun hnot => hnot hg']
      exact Function.update_self ..
    · exact (Function.update_of_ne heq ..).trans hnone

end Giving

/-- Every wait that ends by itself leaves the same calls. -/
theorem Sound.rewait (h : Sound s at_) {b : Bool} (hcalls : cv.calls.Perm s.calls)
    (hwoken : ∀ x ∈ cv.woken, x = (w, b) ∨ x ∈ s.connections.nonEmpty.woken)
    (htimed : b = true → 0 < w.timeout) : Sound (s.onCond cv) at_ := by
  apply h.onCond
  apply h.waits.of_calls (s.onCond cv) hcalls fun _ hg => hg
  intro v hv
  rcases hwoken _ hv with heq | hold
  · obtain ⟨rfl, hb⟩ := Prod.mk.inj heq
    exact htimed hb.symm
  · exact h.waits.timed v hold

theorem Sound.construct {hasPool : Bool} (h : Sound s at_)
    (hstep : s.step (.construct t g hasPool) = some s') : ∃ at', Sound s' at' := by
  simp only [Lease.step] at hstep
  split_ifs at hstep with hc
  all_goals
    rw [not_or, not_or, not_not] at hc
    rw [Option.some.injEq] at hstep
    rw [← hstep]
  · apply h.getConnection
    · intro g' heq
      rw [Option.some.injEq] at heq
      rw [← heq]
      exact hc.2
    · exact nofun
  · refine ⟨at_, h.guards ?_ rfl (Or.inr hc.2.2)⟩
    rw [hc.2.1]
    rfl

theorem Sound.destroy (h : Sound s at_) (hstep : s.step (.destroy t g notified) = some s') :
    ∃ at', Sound s' at' := by
  simp only [Lease.step] at hstep
  split_ifs at hstep
  split at hstep
  · cases hstep
  · rename_i c _ hg
    have hmap := Option.map_eq_some_iff.mp hstep
    rw [← hmap.choose_spec.2]
    exact ⟨_, h.giveBack_guard hg rfl hmap.choose_spec.1⟩
  · rename_i v hother hg
    rw [Option.some.injEq] at hstep
    rw [← hstep]
    refine ⟨at_, h.guards ?_ rfl (Or.inl rfl)⟩
    rw [hg, Option.bind_some]
    cases hconn : v.conn with
    | none => rfl
    | some c =>
      -- such a guard has a pool, and gives the connection back
      have hpool : v.hasPool = true := by
        by_contra hfalse
        rw [v.unpooled (Bool.eq_false_iff.mpr hfalse)] at hconn
        cases hconn
      exact (hother c nofun (ConnectionGuard.ext hpool hconn)).elim

theorem Sound.step {e : LeaseEvent κ τ γ} (h : Sound s at_) (hstep : s.step e = some s') :
    ∃ at', Sound s' at' := by
  cases e with
  | addConnection t c notified =>
    simp only [Lease.step] at hstep
    split_ifs at hstep with hc
    have hmap := Option.map_eq_some_iff.mp hstep
    rw [← hmap.choose_spec.2]
    exact ⟨_, h.addConnection (not_or.mp hc).2 hmap.choose_spec.1⟩
  | getConnection t timeout =>
    simp only [Lease.step] at hstep
    split_ifs at hstep
    rw [Option.some.injEq] at hstep
    rw [← hstep]
    apply h.getConnection
    · intro g hg
      cases hg
    · exact nofun
  | giveBack t c notified =>
    simp only [Lease.step] at hstep
    split_ifs at hstep with hc
    have hmap := Option.map_eq_some_iff.mp hstep
    rw [← hmap.choose_spec.2]
    exact ⟨_, h.giveBack_caller (not_not.mp (not_or.mp hc).2) hmap.choose_spec.1⟩
  | construct t g hasPool => exact h.construct hstep
  | destroy t g notified => exact h.destroy hstep
  | wake w =>
    have hspec := (Option.map_eq_some_iff.mp hstep).choose_spec
    rw [← hspec.2]
    exact ⟨at_, h.rewait (CondVar.calls_wake hspec.1) (fun x => CondVar.mem_woken_wake hspec.1) nofun⟩
  | timeout w =>
    simp only [Lease.step] at hstep
    split_ifs at hstep with htime
    have hspec := (Option.map_eq_some_iff.mp hstep).choose_spec
    rw [← hspec.2]
    exact ⟨at_, h.rewait (CondVar.calls_wake hspec.1) (fun x => CondVar.mem_woken_wake hspec.1)
      fun _ => not_le.mp htime⟩
  | expire w =>
    simp only [Lease.step] at hstep
    split_ifs at hstep with htime
    have hspec := (Option.map_eq_some_iff.mp hstep).choose_spec
    rw [← hspec.2]
    exact ⟨at_, h.rewait (CondVar.calls_expire hspec.1) (fun x => CondVar.mem_woken_expire hspec.1)
      fun _ => not_le.mp htime⟩
  | resume w timedOut =>
    have hspec := (Option.map_eq_some_iff.mp hstep).choose_spec
    rw [← hspec.2]
    have hwaits := h.waits.unblock (CondVar.calls_resume hspec.1) fun v hv =>
      h.waits.timed v (CondVar.mem_woken_resume hspec.1 hv)
    apply (h.onCond hwaits.1).getConnection hwaits.2
    intro htrue
    apply h.waits.timed
    rw [← htrue]
    exact CondVar.woken_of_resume hspec.1

/-- However the steps of the threads interleave, each connection has one holder at most, and nobody
is turned away from a filled pool or without a limit on its time. -/
theorem leased_once (h : Reachable step (fun _ _ => True) (start : Lease κ τ γ) s) :
    s.LeasedOnce ∧ s.NullOnlyIfEmpty := by
  have hsound : ∃ at_, Sound s at_ := by
    apply Reachable.invariant (fun s => ∃ at_, Sound s at_) ⟨_, sound_start⟩ _ h
    intro s e s' hs _ hstep
    exact hs.choose_spec.step hstep
  constructor
  · intro c hc
    have hsound := hsound.choose_spec
    exact hsound.kept.once ((hsound.added c).mp hc)
  · exact hsound.choose_spec.answers

/-- Two callers wait for one connection. The first is notified of it as its time runs out and gets it
all the same; the guard of the second is left without, until it is constructed again. -/
theorem leased_once_late : ∃ s, runIf step (fun _ _ => True) (start : Lease (Fin 1) (Fin 3) (Fin 1))
    [.getConnection 1 5, .construct 2 0 true, .addConnection 0 0 (some ⟨1, none, 5⟩),
      .expire ⟨1, none, 5⟩, .resume ⟨1, none, 5⟩ true, .timeout ⟨2, some 0, 100⟩,
      .resume ⟨2, some 0, 100⟩ true, .destroy 2 0 none, .giveBack 1 0 none,
      .construct 2 0 true] = some s ∧
    s.bag (.guard 0) = [0] ∧ s.LeasedOnce ∧ s.NullOnlyIfEmpty := by
  have hrun : ∃ s, runIf step (fun _ _ => True) (start : Lease (Fin 1) (Fin 3) (Fin 1))
      [.getConnection 1 5, .construct 2 0 true, .addConnection 0 0 (some ⟨1, none, 5⟩),
        .expire ⟨1, none, 5⟩, .resume ⟨1, none, 5⟩ true, .timeout ⟨2, some 0, 100⟩,
        .resume ⟨2, some 0, 100⟩ true, .destroy 2 0 none, .giveBack 1 0 none,
        .construct 2 0 true] = some s ∧ s.bag (.guard 0) = [0] := ⟨_, rfl, rfl⟩
  have hspec := hrun.choose_spec
  exact ⟨_, hspec.1, hspec.2, leased_once (.of_runIf .init hspec.1)⟩

end Lease

end MgRaffle.Utils
