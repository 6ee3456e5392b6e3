import MgRaffle.Library.EdgeTriggered
import MgRaffle.Library.Stepping

open EdgeTriggered Stepping

namespace MgRaffle.TcpServer

def EPOLLIN : ℕ := 0x001

def EPOLLOUT : ℕ := 0x004

def EPOLLET : ℕ := 0x80000000

/-- What `_callback` is bound to. -/
inductive EventCallback
  | acceptCallback
  | connCallback
  deriving Repr, DecidableEq

structure SEventInfo where
  fd : ℕ
  events : ℕ
  callback : EventCallback
  deriving Repr, DecidableEq

/-- What `epoll_wait` writes: `data.ptr` is the number of an `SEventInfo`. -/
structure EpollEvent where
  ptr : ℕ
  events : ℕ
  deriving Repr, DecidableEq

/-- `infos` are the objects that `add_event` has allocated and `deleted` the deletions, the last one
first; `registered` is the kernel's list of descriptors and pointers, `batch` the events of the last
`epoll_wait` that are still to be dispatched. `reported` are the pointers of all events so far. After
an access through a wild pointer nothing is known any more. -/
structure EventLoop where
  listenFd : ℕ
  infos : List SEventInfo
  deleted : List ℕ
  registered : List (ℕ × ℕ)
  conns : List ℕ
  accepts : Source
  batch : List EpollEvent
  reported : List ℕ
  stale : Bool
  wild : Bool
  deriving Repr, DecidableEq

/-- The outcomes in one dispatch: whether the memory of an `SEventInfo` that was deleted before still
holds it, what `accept` and the two `epoll_ctl` return, whether `on_read_some` releases the connection,
and what `remove_event` finds in its `event.data.ptr`, which it never sets. -/
structure Turn where
  kept : Bool
  accepted : Option ℕ
  added : Bool
  release : Bool
  removed : Bool
  garbage : Option ℕ
  deriving Repr, DecidableEq

namespace EventLoop

/-- The descriptor is registered with a copy of the `SEventInfo`, which stays where `epoll_ctl`
fails. -/
def addEvent (s : EventLoop) (info : SEventInfo) (added : Bool) : Bool × EventLoop :=
  let ptr := s.infos.length
  let s := { s with infos := s.infos ++ [info] }
  if added then (true, { s with registered := (info.fd, ptr) :: s.registered }) else (false, s)

/-- The descriptor leaves the kernel's list, by `epoll_ctl` or by `close`. -/
def unregister (s : EventLoop) (fd : ℕ) : EventLoop :=
  { s with registered := s.registered.filter fun r => r.1 ≠ fd }

/-- `delete` on a pointer; a number that no `SEventInfo` has stands for any other address. -/
def delete (s : EventLoop) (ptr : ℕ) : EventLoop :=
  if ptr < s.infos.length then { s with deleted := ptr :: s.deleted } else { s with wild := true }

def removeEvent (s : EventLoop) (fd : ℕ) (removed : Bool) (garbage : Option ℕ) : EventLoop :=
  if removed then
    let s := s.unregister fd
    match garbage with
    | some ptr => s.delete ptr
    | none => s
  else s

/-- `on_close` removes the event and closes the socket. That the last reference to the connection
deletes the server as well, and aborts the process, is left out. -/
def releaseConnection (s : EventLoop) (fd : ℕ) (removed : Bool) (garbage : Option ℕ) : EventLoop :=
  let s := (s.removeEvent fd removed garbage).unregister fd
  { s with conns := s.conns.filter (· ≠ fd) }

def acceptCallback (s : EventLoop) (t : Turn) : EventLoop :=
  match t.accepted with
  | none => s
  | some clientfd =>
    let s := { s with accepts := s.accepts.take }
    let (ok, s) := s.addEvent ⟨clientfd, EPOLLIN ||| EPOLLOUT ||| EPOLLET, .connCallback⟩ t.added
    if ok then { s with conns := clientfd :: s.conns } else s

/-- `on_write_some` does nothing. -/
def connCallback (s : EventLoop) (info : SEventInfo) (t : Turn) : EventLoop :=
  if info.events &&& EPOLLIN ≠ 0 then
    if t.release then s.releaseConnection info.fd t.removed t.garbage else s
  else s

def callback (s : EventLoop) (info : SEventInfo) (t : Turn) : EventLoop :=
  match info.callback with
  | .acceptCallback => s.acceptCallback t
  | .connCallback => s.connCallback info t

/-- `info->_events = events[i].events`. -/
def store (s : EventLoop) (e : EpollEvent) (info : SEventInfo) : EventLoop :=
  { s with infos := s.infos.set e.ptr { info with events := e.events } }

/-- One turn of the loop over `events`: the temporary `SEventInfoSP` deletes the object when the
callback has returned. -/
def dispatch (s : EventLoop) (e : EpollEvent) (info : SEventInfo) (t : Turn) : EventLoop :=
  let gone := decide (e.ptr ∈ s.deleted)
  let s := { s with stale := s.stale || gone }
  if gone && !t.kept then { s with wild := true }
  else ((s.store e info).callback { info with events := e.events } t).delete e.ptr

/-- The pointers registered for the descriptors that are ready. -/
def pointers (s : EventLoop) (ready : List (ℕ × ℕ)) : List EpollEvent :=
  ready.filterMap fun r => (s.registered.lookup r.1).map fun ptr => ⟨ptr, r.2⟩

/-- `epoll_wait` returns each descriptor once, and the listening socket on an edge. -/
def Possible (s : EventLoop) (ready : List (ℕ × ℕ)) : Prop :=
  s.batch = [] ∧ (ready.map Prod.fst).Nodup ∧
    (∀ r ∈ ready, (s.registered.lookup r.1).isSome = true) ∧
    (s.listenFd ∈ ready.map Prod.fst → s.accepts.edge = true)

instance (s : EventLoop) (ready : List (ℕ × ℕ)) : Decidable (s.Possible ready) := by
  unfold Possible
  infer_instance

/-- `accept` returns a descriptor that is not open, for a connection that is waiting. -/
def Acceptable (s : EventLoop) (t : Turn) : Prop :=
  ∀ clientfd ∈ t.accepted, 0 < s.accepts.queue ∧ clientfd ≠ 0 ∧ clientfd ∉ s.registered.map Prod.fst

instance (s : EventLoop) (t : Turn) : Decidable (s.Acceptable t) := by
  unfold Acceptable
  infer_instance

end EventLoop

inductive LoopEvent
  | arrive
  | wait (ready : List (ℕ × ℕ))
  | turn (t : Turn)
  | release (fd : ℕ) (removed : Bool) (garbage : Option ℕ)
  deriving Repr, DecidableEq

namespace EventLoop

/-- After `register_listen_event`, with `pending` connections waiting already. -/
def start (listenFd pending : ℕ) : EventLoop :=
  { listenFd := listenFd
    infos := [⟨listenFd, EPOLLIN ||| EPOLLET, .acceptCallback⟩]
    deleted := []
    registered := [(listenFd, 0)]
    conns := []
    accepts := ⟨pending, decide (0 < pending)⟩
    batch := []
    reported := []
    stale := false
    wild := false }

def step (s : EventLoop) (e : LoopEvent) : Option EventLoop :=
  if s.wild then none
  else
    match e with
    | .arrive => some { s with accepts := s.accepts.arrive }
    | .wait ready =>
      if s.Possible ready then
        some { s with
          batch := s.pointers ready
          reported := (s.pointers ready).map (·.ptr) ++ s.reported
          accepts := if s.listenFd ∈ ready.map Prod.fst then s.accepts.report else s.accepts }
      else none
    | .turn t =>
      match s.batch with
      | [] => none
      | e :: rest =>
        if s.Acceptable t then
          s.infos[e.ptr]?.map fun info => { s with batch := rest }.dispatch e info t
        else none
    | .release fd removed garbage =>
      if fd ∈ s.conns then some (s.releaseConnection fd removed garbage) else none

/-- No `SEventInfo` is deleted twice, and none is used after its deletion. -/
def Intact (s : EventLoop) : Prop := s.deleted.Nodup ∧ s.stale = false

/-- No registration is reported a second time, and `remove_event` finds a null pointer. -/
def Once (s : EventLoop) : LoopEvent → Prop
  | .arrive => True
  | .wait ready => ∀ e ∈ s.pointers ready, e.ptr ∉ s.reported
  | .turn t => t.release = true → t.removed = true → t.garbage = none
  | .release _ removed garbage => removed = true → garbage = none

instance (s : EventLoop) (e : LoopEvent) : Decidable (s.Once e) := by
  cases e <;> unfold Once <;> infer_instance

variable {s t : EventLoop} {info : SEventInfo} {turn : Turn} {e : EpollEvent} {fd ptr : ℕ}

section Steps

theorem step_wait {ready : List (ℕ × ℕ)} (h : s.step (.wait ready) = some t) :
    s.Possible ready ∧ t = { s with
      batch := s.pointers ready
      reported := (s.pointers ready).map (·.ptr) ++ s.reported
      accepts := if s.listenFd ∈ ready.map Prod.fst then s.accepts.report else s.accepts } := by
  unfold step at h
  split_ifs at h with hwild
  dsimp only at h
  by_cases hpossible : s.Possible ready
  · rw [if_pos hpossible, Option.some.injEq] at h
    exact ⟨hpossible, h.symm⟩
  · rw [if_neg hpossible] at h
    cases h

theorem step_turn (h : s.step (.turn turn) = some t) : ∃ e rest info, s.batch = e :: rest ∧
    s.Acceptable turn ∧ s.infos[e.ptr]? = some info ∧
    t = { s with batch := rest }.dispatch e info turn := by
  unfold step at h
  split_ifs at h with hwild
  dsimp only at h
  cases hbatch : s.batch with
  | nil =>
    rw [hbatch] at h
    cases h
  | cons e rest =>
    simp only [hbatch] at h
    split_ifs at h with haccept
    obtain ⟨info, hinfo, rfl⟩ := Option.map_eq_some_iff.mp h
    exact ⟨e, rest, info, rfl, haccept, hinfo, rfl⟩

theorem step_release {removed : Bool} {garbage : Option ℕ}
    (h : s.step (.release fd removed garbage) = some t) :
    fd ∈ s.conns ∧ t = s.releaseConnection fd removed garbage := by
  unfold step at h
  split_ifs at h with hwild
  dsimp only at h
  split_ifs at h with hconn
  exact ⟨hconn, (Option.some.inj h).symm⟩

end Steps

section Tidy

/-- What was deleted was reported before, and the events that are still to be dispatched are not
among it. -/
structure Tidy (s : EventLoop) : Prop where
  reported : ∀ ptr ∈ s.reported, ptr < s.infos.length
  registered : ∀ r ∈ s.registered, r.2 < s.infos.length
  pointers : (s.registered.map Prod.snd).Nodup
  batch : (s.batch.map (·.ptr)).Nodup
  pending : ∀ e ∈ s.batch, e.ptr ∈ s.reported ∧ e.ptr ∉ s.deleted
  deleted : ∀ ptr ∈ s.deleted, ptr ∈ s.reported
  intact : s.Intact

theorem tidy_start (listenFd pending : ℕ) : (start listenFd pending).Tidy := by
  refine ⟨?_, ?_, ?_, ?_, ?_, ?_, List.nodup_nil, rfl⟩
  · intro ptr hptr
    cases hptr
  · intro r hr
    rw [List.mem_singleton.mp hr]
    exact Nat.zero_lt_one
  · exact List.nodup_singleton _
  · exact List.nodup_nil
  · intro e he
    cases he
  · intro ptr hptr
    cases hptr

theorem Tidy.unregister (h : s.Tidy) (fd : ℕ) : (s.unregister fd).Tidy := by
  refine ⟨h.reported, ?_, ?_, h.batch, h.pending, h.deleted, h.intact⟩
  · intro r hr
    exact h.registered r (List.mem_of_mem_filter hr)
  · exact h.pointers.sublist (List.filter_sublist.map _)

theorem Tidy.addEvent (h : s.Tidy) (info : SEventInfo) (added : Bool) :
    (s.addEvent info added).2.Tidy := by
  have hreported : ∀ ptr ∈ s.reported, ptr < (s.infos ++ [info]).length := by
    intro ptr hptr
    rw [List.length_append]
    exact (h.reported ptr hptr).trans_le (Nat.le_add_right _ _)
  have hregistered : ∀ r ∈ s.registered, r.2 < (s.infos ++ [info]).length := by
    intro r hr
    rw [List.length_append]
    exact (h.registered r hr).trans_le (Nat.le_add_right _ _)
  unfold EventLoop.addEvent
  cases added with
  | false => exact ⟨hreported, hregistered, h.pointers, h.batch, h.pending, h.deleted, h.intact⟩
  | true =>
    refine ⟨hreported, ?_, ?_, h.batch, h.pending, h.deleted, h.intact⟩
    · intro r hr
      rcases List.mem_cons.mp hr with rfl | hr
      · simp
      · exact hregistered r hr
    · -- the pointer is new
      refine List.nodup_cons.mpr ⟨?_, h.pointers⟩
      intro hmem
      obtain ⟨r, hr, heq⟩ := List.mem_map.mp hmem
      exact (h.registered r hr).ne heq

theorem Tidy.releaseConnection (h : s.Tidy) (fd : ℕ) {removed : Bool} {garbage : Option ℕ}
    (hnull : removed = true → garbage = none) : (s.releaseConnection fd removed garbage).Tidy := by
  have hremoved : (s.removeEvent fd removed garbage).Tidy := by
    unfold removeEvent
    cases removed with
    | false => exact h
    | true =>
      rw [hnull rfl]
      exact h.unregister fd
  have hclosed := hremoved.unregister fd
  exact ⟨hclosed.reported, hclosed.registered, hclosed.pointers, hclosed.batch, hclosed.pending,
    hclosed.deleted, hclosed.intact⟩

theorem Tidy.callback (h : s.Tidy) (info : SEventInfo)
    (hnull : turn.release = true → turn.removed = true → turn.garbage = none) :
    (s.callback info turn).Tidy := by
  unfold EventLoop.callback
  cases info.callback with
  | acceptCallback =>
    unfold acceptCallback
    cases turn.accepted with
    | none => exact h
    | some clientfd =>
      have htaken : Tidy { s with accepts := s.accepts.take } :=
        ⟨h.reported, h.registered, h.pointers, h.batch, h.pending, h.deleted, h.intact⟩
      have hadded := htaken.addEvent ⟨clientfd, EPOLLIN ||| EPOLLOUT ||| EPOLLET, .connCallback⟩
        turn.added
      dsimp only
      split_ifs
      · exact ⟨hadded.reported, hadded.registered, hadded.pointers, hadded.batch, hadded.pending,
          hadded.deleted, hadded.intact⟩
      · exact hadded
  | connCallback =>
    dsimp only [connCallback]
    split_ifs with hin hrelease
    · exact h.releaseConnection info.fd (hnull hrelease)
    · exact h
    · exact h

/-- A callback leaves the events and the deletions as they are. -/
theorem callback_frame (s : EventLoop) (info : SEventInfo)
    (hnull : turn.release = true → turn.removed = true → turn.garbage = none) :
    (s.callback info turn).batch = s.batch ∧ (s.callback info turn).deleted = s.deleted ∧
      (s.callback info turn).reported = s.reported := by
  unfold EventLoop.callback
  cases info.callback with
  | acceptCallback =>
    unfold acceptCallback addEvent
    cases turn.accepted with
    | none => exact ⟨rfl, rfl, rfl⟩
    | some clientfd => cases turn.added <;> exact ⟨rfl, rfl, rfl⟩
  | connCallback =>
    dsimp only [connCallback]
    split_ifs with hin hrelease
    · unfold EventLoop.releaseConnection removeEvent
      cases hremoved : turn.removed with
      | false => exact ⟨rfl, rfl, rfl⟩
      | true =>
        rw [hnull hrelease hremoved]
        exact ⟨rfl, rfl, rfl⟩
    · exact ⟨rfl, rfl, rfl⟩
    · exact ⟨rfl, rfl, rfl⟩

theorem dispatch_live (h : e.ptr ∉ s.deleted) : s.dispatch e info turn =
    ((s.store e info).callback { info with events := e.events } turn).delete e.ptr := by
  unfold EventLoop.dispatch
  simp only [decide_eq_false h, Bool.false_and, Bool.false_eq_true, if_false, Bool.or_false]

theorem Tidy.store (h : s.Tidy) (e : EpollEvent) (info : SEventInfo) : (s.store e info).Tidy := by
  refine ⟨?_, ?_, h.pointers, h.batch, h.pending, h.deleted, h.intact⟩
  · intro ptr hptr
    exact (h.reported ptr hptr).trans_eq List.length_set.symm
  · intro r hr
    exact (h.registered r hr).trans_eq List.length_set.symm

/-- An `SEventInfo` is deleted that was reported and that no event to come refers to. -/
theorem Tidy.delete (h : s.Tidy) (hreported : ptr ∈ s.reported) (hlive : ptr ∉ s.deleted)
    (hbatch : ptr ∉ s.batch.map (·.ptr)) : (s.delete ptr).Tidy := by
  unfold EventLoop.delete
  rw [if_pos (h.reported ptr hreported)]
  refine ⟨h.reported, h.registered, h.pointers, h.batch, ?_, ?_, ?_, h.intact.2⟩
  · intro f hf
    obtain ⟨hrep, hnot⟩ := h.pending f hf
    refine ⟨hrep, ?_⟩
    intro hmem
    rcases List.mem_cons.mp hmem with heq | hmem
    · exact hbatch (heq ▸ List.mem_map_of_mem hf)
    · exact hnot hmem
  · intro q hq
    rcases List.mem_cons.mp hq with rfl | hq
    · exact hreported
    · exact h.deleted q hq
  · exact List.nodup_cons.mpr ⟨hlive, h.intact.1⟩

/-- An event that was taken from the batch has its `SEventInfo` deleted. -/
theorem Tidy.dispatch (h : s.Tidy) (hreported : e.ptr ∈ s.reported) (hlive : e.ptr ∉ s.deleted)
    (hbatch : e.ptr ∉ s.batch.map (·.ptr))
    (hnull : turn.release = true → turn.removed = true → turn.garbage = none) :
    (s.dispatch e info turn).Tidy := by
  rw [dispatch_live hlive]
  obtain ⟨hb, hd, hr⟩ := callback_frame (s.store e info) { info with events := e.events } hnull
  have hcalled := (h.store e info).callback { info with events := e.events } hnull
  apply hcalled.delete
  · rw [hr]
    exact hreported
  · rw [hd]
    exact hlive
  · rw [hb]
    exact hbatch

theorem mem_registered {fd ptr : ℕ} (h : s.registered.lookup fd = some ptr) :
    (fd, ptr) ∈ s.registered := by
  obtain ⟨l₁, l₂, heq, -⟩ := List.lookup_eq_some_iff.mp h
  rw [heq]
  exact List.mem_append_right _ List.mem_cons_self

theorem mem_pointers {ready : List (ℕ × ℕ)} (h : e ∈ s.pointers ready) :
    ∃ r ∈ ready, (r.1, e.ptr) ∈ s.registered := by
  obtain ⟨r, hr, hmap⟩ := List.mem_filterMap.mp h
  obtain ⟨ptr, hlookup, rfl⟩ := Option.map_eq_some_iff.mp hmap
  exact ⟨r, hr, mem_registered hlookup⟩

/-- The events of one `epoll_wait` have distinct pointers. -/
theorem Tidy.pointers_nodup (h : s.Tidy) {ready : List (ℕ × ℕ)}
    (hready : (ready.map Prod.fst).Nodup) : ((s.pointers ready).map (·.ptr)).Nodup := by
  induction ready with
  | nil => exact List.nodup_nil
  | cons r rest ih =>
    rw [List.map_cons, List.nodup_cons] at hready
    have hrest := ih hready.2
    unfold EventLoop.pointers at hrest ⊢
    cases hlookup : s.registered.lookup r.1 with
    | none =>
      rw [List.filterMap_cons_none (by rw [hlookup]; rfl)]
      exact hrest
    | some ptr =>
      rw [List.filterMap_cons_some (by rw [hlookup]; rfl), List.map_cons, List.nodup_cons]
      refine ⟨?_, hrest⟩
      intro hmem
      -- another descriptor with the pointer would be registered with it as well
      obtain ⟨f, hf, heq⟩ := List.mem_map.mp hmem
      obtain ⟨q, hq, hreg⟩ := mem_pointers hf
      have hsame := List.inj_on_of_nodup_map h.pointers hreg (mem_registered hlookup) heq
      rw [Prod.mk.injEq] at hsame
      exact hready.1 (hsame.1 ▸ List.mem_map_of_mem hq)

theorem Tidy.wait (h : s.Tidy) {ready : List (ℕ × ℕ)} (hpossible : s.Possible ready)
    (hc : s.Once (.wait ready)) : Tidy { s with
      batch := s.pointers ready
      reported := (s.pointers ready).map (·.ptr) ++ s.reported
      accepts := if s.listenFd ∈ ready.map Prod.fst then s.accepts.report else s.accepts } := by
  have hlt : ∀ e ∈ s.pointers ready, e.ptr < s.infos.length := by
    intro e he
    obtain ⟨r, -, hreg⟩ := mem_pointers he
    exact h.registered _ hreg
  refine ⟨?_, h.registered, h.pointers, h.pointers_nodup hpossible.2.1, ?_, ?_, h.intact⟩
  · intro ptr hptr
    rcases List.mem_append.mp hptr with hptr | hptr
    · obtain ⟨e, he, rfl⟩ := List.mem_map.mp hptr
      exact hlt e he
    · exact h.reported ptr hptr
  · intro e he
    refine ⟨List.mem_append_left _ (List.mem_map_of_mem he), ?_⟩
    intro hdel
    exact hc e he (h.deleted _ hdel)
  · intro ptr hptr
    exact List.mem_append_right _ (h.deleted ptr hptr)

theorem Tidy.turned (h : s.Tidy) {rest : List EpollEvent} (hbatch : s.batch = e :: rest)
    (hc : s.Once (.turn turn)) :
    (EventLoop.dispatch { s with batch := rest } e info turn).Tidy := by
  have hdistinct := h.batch
  have hpending := h.pending
  rw [hbatch, List.map_cons, List.nodup_cons] at hdistinct
  rw [hbatch] at hpending
  obtain ⟨hreported, hlive⟩ := hpending e List.mem_cons_self
  have hpopped : Tidy { s with batch := rest } :=
    ⟨h.reported, h.registered, h.pointers, hdistinct.2,
      fun f hf => hpending f (List.mem_cons_of_mem _ hf), h.deleted, h.intact⟩
  exact hpopped.dispatch hreported hlive hdistinct.1 hc

theorem tidy_step {c : LoopEvent} (h : s.Tidy) (hc : s.Once c) (hstep : s.step c = some t) :
    t.Tidy := by
  cases c with
  | arrive =>
    unfold step at hstep
    split_ifs at hstep with hwild
    cases hstep
    exact ⟨h.reported, h.registered, h.pointers, h.batch, h.pending, h.deleted, h.intact⟩
  | wait ready =>
    obtain ⟨hpossible, rfl⟩ := step_wait hstep
    exact h.wait hpossible hc
  | turn o =>
    obtain ⟨e, rest, info, hbatch, -, -, rfl⟩ := step_turn hstep
    exact h.turned hbatch hc
  | release fd removed garbage =>
    obtain ⟨-, rfl⟩ := step_release hstep
    exact h.releaseConnection fd hc

end Tidy

/-- As long as no registration is reported twice and the indeterminate pointer is null, an
`SEventInfo` is deleted at most once and never used afterwards. -/
theorem infos_intact (listenFd pending : ℕ) (s : EventLoop)
    (h : Reachable step Once (start listenFd pending) s) : s.Intact := by
  have htidy : s.Tidy := by
    apply Reachable.invariant Tidy (tidy_start listenFd pending) _ h
    intro s c t hs hc hstep
    exact tidy_step hs hc hstep
  exact htidy.intact

/-- A connection is accepted on the socket 7, and read from when its first message is there. -/
theorem infos_intact_read : ∃ s, runIf step Once (start 3 0)
    [.arrive, .wait [(3, EPOLLIN)], .turn ⟨false, some 7, true, false, false, none⟩, .arrive,
      .wait [(7, EPOLLIN)], .turn ⟨false, none, false, false, false, none⟩] = some s ∧
    s.deleted = [1, 0] ∧ s.Intact := by
  obtain ⟨s, hs, hdeleted⟩ : ∃ s, runIf step Once (start 3 0)
      [.arrive, .wait [(3, EPOLLIN)], .turn ⟨false, some 7, true, false, false, none⟩, .arrive,
        .wait [(7, EPOLLIN)], .turn ⟨false, none, false, false, false, none⟩] = some s ∧
      s.deleted = [1, 0] := ⟨_, rfl, rfl⟩
  exact ⟨s, hs, hdeleted, infos_intact 3 0 s (.of_runIf .init hs)⟩

/-- The second connection is reported through the `SEventInfo` that the first report has deleted. -/
theorem second_report_uses_deleted : ¬ ∀ (listenFd pending : ℕ) (s : EventLoop),
    Reachable step (fun _ _ => True) (start listenFd pending) s → s.Intact := by
  intro h
  obtain ⟨s, hs⟩ : ∃ s, runIf step (fun _ _ => True) (start 3 0)
      [.arrive, .wait [(3, EPOLLIN)], .turn ⟨false, some 7, true, false, false, none⟩,
        .arrive, .wait [(3, EPOLLIN)], .turn ⟨true, some 8, true, false, false, none⟩] = some s :=
    ⟨_, rfl⟩
  have hintact := (h 3 0 s (.of_runIf .init hs)).2
  cases hs
  cases hintact

section Accepting

/-- Back in `epoll_wait` and without an edge to be reported, no connection is waiting. -/
def Drained (s : EventLoop) : Prop :=
  s.batch = [] → s.accepts.edge = false → s.accepts.queue = 0

/-- When `accept_callback` is called (through memory that still holds it), one connection at most is
waiting, which `accept` returns; or another one has come since the report. -/
def OneByOne (s : EventLoop) : LoopEvent → Prop
  | .turn t => ∀ e ∈ s.batch.head?, ∀ info ∈ s.infos[e.ptr]?, info.callback = .acceptCallback →
      (e.ptr ∈ s.deleted → t.kept = true) ∧ s.accepts.OneLeft ∧
        (s.accepts.edge = false → 0 < s.accepts.queue → t.accepted.isSome = true)
  | _ => True

instance (s : EventLoop) (e : LoopEvent) : Decidable (s.OneByOne e) := by
  cases e <;> unfold OneByOne <;> infer_instance

/-- The listening socket keeps its registration, which is the only one for `accept_callback`. -/
structure Wired (s : EventLoop) : Prop where
  listener : s.registered.lookup s.listenFd = some 0
  callback : ∀ ptr info, s.infos[ptr]? = some info →
    if ptr = 0 then info.callback = .acceptCallback
    else info.callback = .connCallback ∧ info.fd ≠ s.listenFd
  first : 0 < s.infos.length
  conns : s.listenFd ∉ s.conns

theorem wired_start (listenFd pending : ℕ) : (start listenFd pending).Wired := by
  refine ⟨?_, ?_, Nat.zero_lt_one, List.not_mem_nil⟩
  · simp [start]
  · intro ptr info hinfo
    obtain ⟨hlt, hget⟩ := List.getElem?_eq_some_iff.mp hinfo
    have hzero : ptr = 0 := Nat.lt_one_iff.mp hlt
    subst hzero
    rw [if_pos rfl, ← hget]
    rfl

theorem lookup_filter {l : List (ℕ × ℕ)} {fd key : ℕ} (h : key ≠ fd) :
    (l.filter fun r => r.1 ≠ fd).lookup key = l.lookup key := by
  induction l with
  | nil => rfl
  | cons r rest ih =>
    by_cases hr : r.1 = fd
    · have hkey : (key == r.1) = false := by
        rw [hr]
        exact beq_false_of_ne h
      rw [List.filter_cons_of_neg (by simp [hr]), ih, List.lookup_cons, hkey]
    · rw [List.filter_cons_of_pos (by simp [hr]), List.lookup_cons, List.lookup_cons, ih]

theorem Wired.unregister (h : s.Wired) (hfd : fd ≠ s.listenFd) : (s.unregister fd).Wired :=
  ⟨(lookup_filter hfd.symm).trans h.listener, h.callback, h.first, h.conns⟩

theorem Wired.delete (h : s.Wired) (ptr : ℕ) : (s.delete ptr).Wired := by
  unfold EventLoop.delete
  split_ifs
  · exact ⟨h.listener, h.callback, h.first, h.conns⟩
  · exact ⟨h.listener, h.callback, h.first, h.conns⟩

theorem Wired.releaseConnection (h : s.Wired) (hfd : fd ≠ s.listenFd) (removed : Bool)
    (garbage : Option ℕ) : (s.releaseConnection fd removed garbage).Wired := by
  have hremoved : (s.removeEvent fd removed garbage).Wired ∧
      (s.removeEvent fd removed garbage).listenFd = s.listenFd := by
    unfold removeEvent
    cases removed with
    | false => exact ⟨h, rfl⟩
    | true =>
      cases garbage with
      | none => exact ⟨h.unregister hfd, rfl⟩
      | some ptr =>
        refine ⟨(h.unregister hfd).delete ptr, ?_⟩
        dsimp only [if_true, EventLoop.delete]
        split_ifs <;> rfl
  obtain ⟨hw, hlisten⟩ := hremoved
  have hne : fd ≠ (s.removeEvent fd removed garbage).listenFd := by
    rw [hlisten]
    exact hfd
  have hclosed := hw.unregister hne
  refine ⟨hclosed.listener, hclosed.callback, hclosed.first, ?_⟩
  intro hmem
  exact hclosed.conns (List.mem_of_mem_filter hmem)

theorem Wired.store (h : s.Wired) (hinfo : s.infos[e.ptr]? = some info) :
    (s.store e info).Wired := by
  obtain ⟨hlt, -⟩ := List.getElem?_eq_some_iff.mp hinfo
  refine ⟨h.listener, ?_, h.first.trans_eq List.length_set.symm, h.conns⟩
  intro ptr i hi
  by_cases hptr : e.ptr = ptr
  · subst hptr
    have hself : i = { info with events := e.events } := by
      simp only [EventLoop.store, List.getElem?_set_self hlt, Option.some.injEq] at hi
      exact hi.symm
    rw [hself]
    exact h.callback e.ptr info hinfo
  · simp only [EventLoop.store, List.getElem?_set_ne hptr] at hi
    exact h.callback ptr i hi

/-- A new connection gets a registration of its own. -/
theorem Wired.addEvent (h : s.Wired) (info : SEventInfo) (hfd : info.fd ≠ s.listenFd)
    (hcallback : info.callback = .connCallback) (added : Bool) :
    (s.addEvent info added).2.Wired := by
  have hinfos : ∀ ptr i, (s.infos ++ [info])[ptr]? = some i →
      if ptr = 0 then i.callback = .acceptCallback
      else i.callback = .connCallback ∧ i.fd ≠ s.listenFd := by
    intro ptr i hi
    by_cases hlt : ptr < s.infos.length
    · rw [List.getElem?_append_left hlt] at hi
      exact h.callback ptr i hi
    · obtain ⟨hlt', hget⟩ := List.getElem?_eq_some_iff.mp hi
      rw [List.length_append, List.length_singleton] at hlt'
      have hlast : ptr = s.infos.length := by omega
      have hnew : i = info := by
        rw [← hget, List.getElem_append_right (by omega)]
        simp [hlast]
      have hne := h.first
      rw [if_neg (by omega), hnew]
      exact ⟨hcallback, hfd⟩
  have hfirst : 0 < (s.infos ++ [info]).length := by
    rw [List.length_append]
    exact h.first.trans_le (Nat.le_add_right _ _)
  unfold EventLoop.addEvent
  cases added with
  | false => exact ⟨h.listener, hinfos, hfirst, h.conns⟩
  | true =>
    refine ⟨?_, hinfos, hfirst, h.conns⟩
    have hkey : (s.listenFd == info.fd) = false := beq_false_of_ne hfd.symm
    show ((info.fd, s.infos.length) :: s.registered).lookup s.listenFd = some 0
    rw [List.lookup_cons, hkey]
    exact h.listener

theorem addEvent_frame (s : EventLoop) (info : SEventInfo) (added : Bool) :
    (s.addEvent info added).2.listenFd = s.listenFd ∧
      (s.addEvent info added).2.accepts = s.accepts ∧ (s.addEvent info added).2.batch = s.batch := by
  unfold EventLoop.addEvent
  cases added <;> exact ⟨rfl, rfl, rfl⟩

theorem delete_frame (s : EventLoop) (ptr : ℕ) :
    (s.delete ptr).accepts = s.accepts ∧ (s.delete ptr).batch = s.batch := by
  unfold EventLoop.delete
  split_ifs <;> exact ⟨rfl, rfl⟩

theorem releaseConnection_frame (s : EventLoop) (fd : ℕ) (removed : Bool) (garbage : Option ℕ) :
    (s.releaseConnection fd removed garbage).accepts = s.accepts ∧
      (s.releaseConnection fd removed garbage).batch = s.batch := by
  unfold EventLoop.releaseConnection removeEvent
  cases removed with
  | false => exact ⟨rfl, rfl⟩
  | true =>
    cases garbage with
    | none => exact ⟨rfl, rfl⟩
    | some ptr => exact delete_frame (s.unregister fd) ptr

theorem connCallback_frame (s : EventLoop) (info : SEventInfo) (turn : Turn) :
    (s.connCallback info turn).accepts = s.accepts ∧
      (s.connCallback info turn).batch = s.batch := by
  unfold connCallback
  split_ifs
  · exact releaseConnection_frame s info.fd turn.removed turn.garbage
  · exact ⟨rfl, rfl⟩
  · exact ⟨rfl, rfl⟩

theorem acceptCallback_frame (s : EventLoop) (turn : Turn) :
    (s.acceptCallback turn).accepts =
        (if turn.accepted.isSome then s.accepts.take else s.accepts) ∧
      (s.acceptCallback turn).batch = s.batch := by
  unfold acceptCallback
  cases turn.accepted with
  | none => exact ⟨rfl, rfl⟩
  | some clientfd =>
    obtain ⟨-, haccepts, hbatch⟩ := addEvent_frame { s with accepts := s.accepts.take }
      ⟨clientfd, EPOLLIN ||| EPOLLOUT ||| EPOLLET, .connCallback⟩ turn.added
    rw [Option.isSome_some, if_pos rfl]
    dsimp only
    split_ifs
    · exact ⟨haccepts, hbatch⟩
    · exact ⟨haccepts, hbatch⟩

theorem Wired.callback_wired (h : s.Wired) (info : SEventInfo) (haccept : s.Acceptable turn)
    (hfd : info.callback = .connCallback → info.fd ≠ s.listenFd) :
    (s.callback info turn).Wired := by
  unfold EventLoop.callback
  cases hcallback : info.callback with
  | acceptCallback =>
    unfold acceptCallback
    cases haccepted : turn.accepted with
    | none => exact h
    | some clientfd =>
      obtain ⟨-, -, hnew⟩ := haccept clientfd haccepted
      have hclient : clientfd ≠ s.listenFd := by
        intro heq
        exact hnew (heq ▸ List.mem_map_of_mem (mem_registered h.listener))
      have htaken : Wired { s with accepts := s.accepts.take } :=
        ⟨h.listener, h.callback, h.first, h.conns⟩
      have hadded := htaken.addEvent
        ⟨clientfd, EPOLLIN ||| EPOLLOUT ||| EPOLLET, .connCallback⟩ hclient rfl turn.added
      dsimp only
      split_ifs
      · refine ⟨hadded.listener, hadded.callback, hadded.first, ?_⟩
        intro hmem
        rcases List.mem_cons.mp hmem with heq | hmem
        · rw [(addEvent_frame _ _ turn.added).1] at heq
          exact hclient heq.symm
        · exact hadded.conns hmem
      · exact hadded
  | connCallback =>
    dsimp only [connCallback]
    split_ifs with hin hrelease
    · exact h.releaseConnection (hfd hcallback) turn.removed turn.garbage
    · exact h
    · exact h

theorem Wired.dispatch (h : s.Wired) (hinfo : s.infos[e.ptr]? = some info)
    (haccept : s.Acceptable turn) : (s.dispatch e info turn).Wired := by
  have hfd : info.callback = .connCallback → info.fd ≠ s.listenFd := by
    intro hconn
    have hcases := h.callback e.ptr info hinfo
    split_ifs at hcases with hzero
    · rw [hconn] at hcases
      cases hcases
    · exact hcases.2
  have hmarked : Wired { s with stale := s.stale || decide (e.ptr ∈ s.deleted) } :=
    ⟨h.listener, h.callback, h.first, h.conns⟩
  unfold EventLoop.dispatch
  dsimp only
  split_ifs
  · exact ⟨h.listener, h.callback, h.first, h.conns⟩
  · exact ((hmarked.store hinfo).callback_wired { info with events := e.events } haccept
      hfd).delete e.ptr

/-- The event of a connection leaves the connections that wait as they are. -/
theorem dispatch_conn (s : EventLoop) (e : EpollEvent) (turn : Turn)
    (hconn : info.callback = .connCallback) :
    (s.dispatch e info turn).accepts = s.accepts ∧ (s.dispatch e info turn).batch = s.batch := by
  unfold EventLoop.dispatch
  dsimp only
  split_ifs
  · exact ⟨rfl, rfl⟩
  · obtain ⟨haccepts, hbatch⟩ := delete_frame (EventLoop.callback (EventLoop.store
      { s with stale := s.stale || decide (e.ptr ∈ s.deleted) } e info)
      { info with events := e.events } turn) e.ptr
    rw [haccepts, hbatch]
    unfold EventLoop.callback
    simp only [hconn]
    exact connCallback_frame _ _ turn

/-- The event of the listening socket takes a connection if `accept` does. -/
theorem dispatch_accept (s : EventLoop) (e : EpollEvent)
    (hcallback : info.callback = .acceptCallback) (hkept : e.ptr ∈ s.deleted → turn.kept = true) :
    (s.dispatch e info turn).accepts =
        (if turn.accepted.isSome then s.accepts.take else s.accepts) ∧
      (s.dispatch e info turn).batch = s.batch := by
  have hlive : ¬ ((decide (e.ptr ∈ s.deleted) && !turn.kept) = true) := by
    by_cases hdel : e.ptr ∈ s.deleted
    · simp [hkept hdel]
    · simp [hdel]
  unfold EventLoop.dispatch
  dsimp only
  rw [if_neg hlive]
  obtain ⟨haccepts, hbatch⟩ := delete_frame (EventLoop.callback (EventLoop.store
    { s with stale := s.stale || decide (e.ptr ∈ s.deleted) } e info)
    { info with events := e.events } turn) e.ptr
  rw [haccepts, hbatch]
  unfold EventLoop.callback
  simp only [hcallback]
  exact acceptCallback_frame _ turn

/-- A connection that waits has an edge or a report that is still to be dispatched. -/
structure Watched (s : EventLoop) : Prop extends Wired s where
  settled : s.accepts.Settled (0 ∈ s.batch.map (·.ptr))

theorem Watched.drained (h : s.Watched) : s.Drained := by
  intro hbatch
  apply h.settled
  rw [hbatch]
  exact List.not_mem_nil

theorem watched_start (listenFd pending : ℕ) : (start listenFd pending).Watched := by
  refine ⟨wired_start listenFd pending, ?_⟩
  intro _ hedge
  have hnone : ¬ 0 < pending := of_decide_eq_false hedge
  exact Nat.eq_zero_of_not_pos hnone

theorem Watched.wait (h : s.Watched) {ready : List (ℕ × ℕ)} (hpossible : s.Possible ready) :
    Watched { s with
      batch := s.pointers ready
      reported := (s.pointers ready).map (·.ptr) ++ s.reported
      accepts := if s.listenFd ∈ ready.map Prod.fst then s.accepts.report else s.accepts } := by
  refine ⟨⟨h.listener, h.callback, h.first, h.conns⟩, ?_⟩
  dsimp only
  split_ifs with hlisten
  · -- the report of the listening socket is in the batch
    apply Source.settled_of_noticed
    obtain ⟨r, hr, heq⟩ := List.mem_map.mp hlisten
    refine List.mem_map.mpr ⟨⟨0, r.2⟩, List.mem_filterMap.mpr ⟨r, hr, ?_⟩, rfl⟩
    rw [heq, h.listener]
    rfl
  · apply h.settled.mono
    rw [hpossible.1]
    intro hmem
    cases hmem

/-- A turn that is one by one leaves no connection without an edge. -/
theorem Watched.turned (h : s.Watched) {rest : List EpollEvent} (hbatch : s.batch = e :: rest)
    (hinfo : s.infos[e.ptr]? = some info) (haccept : s.Acceptable turn)
    (hone : s.OneByOne (.turn turn)) :
    (EventLoop.dispatch { s with batch := rest } e info turn).Watched := by
  have hpopped : Wired { s with batch := rest } := ⟨h.listener, h.callback, h.first, h.conns⟩
  refine ⟨hpopped.dispatch hinfo haccept, ?_⟩
  have hcases := h.callback e.ptr info hinfo
  by_cases hzero : e.ptr = 0
  · rw [if_pos hzero] at hcases
    have hhead : e ∈ s.batch.head? := by
      rw [hbatch]
      rfl
    obtain ⟨hkept, hleft, hsome⟩ := hone e hhead info hinfo hcases
    obtain ⟨haccepts, -⟩ := dispatch_accept { s with batch := rest } e hcases hkept
    rw [haccepts]
    split_ifs with haccepted
    · exact hleft.settled_take
    · intro _ hedge
      by_contra hqueue
      exact haccepted (hsome hedge (Nat.pos_of_ne_zero hqueue))
  · rw [if_neg hzero] at hcases
    obtain ⟨haccepts, hrest⟩ := dispatch_conn { s with batch := rest } e turn hcases.1
    rw [haccepts, hrest]
    apply h.settled.mono
    rw [hbatch]
    intro hmem
    rcases List.mem_cons.mp hmem with heq | hmem
    · exact absurd heq.symm hzero
    · exact hmem

theorem watched_step {c : LoopEvent} (h : s.Watched) (hc : s.OneByOne c)
    (hstep : s.step c = some t) : t.Watched := by
  cases c with
  | arrive =>
    unfold step at hstep
    split_ifs at hstep with hwild
    cases hstep
    exact ⟨⟨h.listener, h.callback, h.first, h.conns⟩, Source.settled_arrive⟩
  | wait ready =>
    obtain ⟨hpossible, rfl⟩ := step_wait hstep
    exact h.wait hpossible
  | turn o =>
    obtain ⟨e, rest, info, hbatch, haccept, hinfo, rfl⟩ := step_turn hstep
    exact h.turned hbatch hinfo haccept hc
  | release fd removed garbage =>
    obtain ⟨hconn, rfl⟩ := step_release hstep
    have hfd : fd ≠ s.listenFd := by
      intro heq
      exact h.conns (heq ▸ hconn)
    obtain ⟨haccepts, hbatch⟩ := releaseConnection_frame s fd removed garbage
    refine ⟨h.toWired.releaseConnection hfd removed garbage, ?_⟩
    rw [haccepts, hbatch]
    exact h.settled

end Accepting

/-- As long as the connections are accepted one by one, none is forgotten. -/
theorem connections_drained (listenFd pending : ℕ) (s : EventLoop)
    (h : Reachable step OneByOne (start listenFd pending) s) : s.Drained := by
  have hwatched : s.Watched := by
    apply Reachable.invariant Watched (watched_start listenFd pending) _ h
    intro s c t hs hc hstep
    exact watched_step hs hc hstep
  exact hwatched.drained

/-- Two connections, each one reported before the next one comes. -/
theorem connections_drained_two : ∃ s, runIf step OneByOne (start 3 0)
    [.arrive, .wait [(3, EPOLLIN)], .turn ⟨false, some 7, true, false, false, none⟩,
      .arrive, .wait [(3, EPOLLIN)], .turn ⟨true, some 8, true, false, false, none⟩] = some s ∧
    s.Drained := by
  obtain ⟨s, hs⟩ : ∃ s, runIf step OneByOne (start 3 0)
      [.arrive, .wait [(3, EPOLLIN)], .turn ⟨false, some 7, true, false, false, none⟩,
        .arrive, .wait [(3, EPOLLIN)], .turn ⟨true, some 8, true, false, false, none⟩] = some s :=
    ⟨_, rfl⟩
  exact ⟨s, hs, connections_drained 3 0 s (.of_runIf .init hs)⟩

/-- Two connections come before the first report, and the second one is forgotten. -/
theorem second_arrival_forgotten : ¬ ∀ (listenFd pending : ℕ) (s : EventLoop),
    Reachable step (fun _ _ => True) (start listenFd pending) s → s.Drained := by
  intro h
  obtain ⟨s, hs⟩ : ∃ s, runIf step (fun _ _ => True) (start 3 0)
      [.arrive, .arrive, .wait [(3, EPOLLIN)], .turn ⟨false, some 7, true, false, false, none⟩] =
        some s := ⟨_, rfl⟩
  have hdrained := h 3 0 s (.of_runIf .init hs)
  cases hs
  revert hdrained
  unfold Drained
  decide

end EventLoop

end MgRaffle.TcpServer
