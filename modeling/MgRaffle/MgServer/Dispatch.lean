import MgRaffle.MgServer.Conservation

namespace MgRaffle.MgServer
open Stepping

/-- The thread is in `recv_run`. -/
def Ctrl.receiving : Ctrl → Bool
  | .idle => false
  | .sendBuf _ _ => false
  | _ => true

namespace Server

/-- The descriptor that a step calls `recv`, `send` or `CloseConn` for. -/
def uses (s : Server) (e : Event) : Option ℤ :=
  match e, s.ctrl with
  | .epollin fd, .idle => if s.conns fd = none then some fd else none
  | .epollout fd, .idle => if s.conns fd = none then some fd else none
  | .run, .recvRun fd _ => if s.pool = [] then some fd else none
  | .received _, .recv w => some w.fd
  | .recvFailed _, .recv w => some w.fd
  | .sent _, .doResponse w _ _ _ _ => some w.fd
  | .sent _, .sendBuf fd _ => some fd
  | _, _ => none

/-- The descriptor that a step calls `CloseConn` for. -/
def closesFd (s : Server) (e : Event) : Option ℤ :=
  match e, s.ctrl with
  | .epollin _, .idle => s.uses e
  | .epollout _, .idle => s.uses e
  | _, _ => if s.closes e = none then none else s.uses e

/-- What a step does to the descriptors: the calls it makes, `CloseConn` among them, and what the
thread is busy with afterwards. -/
inductive Touches (s : Server) (e : Event) (t : Server) : Prop
  | accepts (fd : ℤ) (he : e = .accept fd) (hctrl : s.ctrl = .idle) (ht : t = s.createConn fd)
  | absent (fd : ℤ) (he : e = .epollin fd ∨ e = .epollout fd) (hctrl : s.ctrl = .idle)
      (hfd : s.conns fd = none) (hcloses : s.closesFd e = some fd) (ht : t = s)
  | enters (fd : ℤ) (c : ConnId) (he : e = .epollin fd ∨ e = .epollout fd) (hctrl : s.ctrl = .idle)
      (hfd : s.conns fd = some c) (huses : s.uses e = none) (hcloses : s.closesFd e = none)
      (hconns : t.conns = s.conns) (hserving : t.ctrl.serving = some (fd, c))
  | stays (p : ℤ × ConnId) (hserving : s.ctrl.serving = some p) (hcloses : s.closes e = none)
      (huses : ∀ fd ∈ s.uses e, fd = p.1) (hconns : t.conns = s.conns)
      (hnext : t.ctrl.serving = some p ∧ t.ctrl.receiving = s.ctrl.receiving ∨
        t.ctrl = .idle ∧ (s.ctrl.receiving = true → s.uses e ≠ none))
  | closes (p : ℤ × ConnId) (hserving : s.ctrl.serving = some p) (hcloses : s.closes e ≠ none)
      (huses : s.uses e = some p.1) (hconns : t.conns = Function.update s.conns p.1 none)
      (hnext : s.refuses e = true ∧ t.ctrl.serving = some p ∧ t.ctrl.receiving = true ∨
        s.refuses e = false ∧ t.ctrl = .idle)

section Calls

variable {parse : List UInt8 → RpcHeader} {s t : Server} {e : Event} {fd : ℤ}

theorem serving_of_ctrl {ctrl : Ctrl} (h : s.ctrl = ctrl) : s.ctrl.serving = ctrl.serving := by
  rw [h]

theorem closesFd_of_serving {p : ℤ × ConnId} (h : s.ctrl.serving = some p) :
    s.closesFd e = if s.closes e = none then none else s.uses e := by
  have hidle : s.ctrl ≠ .idle := by
    intro heq
    rw [heq] at h
    cases h
  unfold closesFd
  split
  · exact absurd ‹_› hidle
  · exact absurd ‹_› hidle
  · rfl

theorem closesFd_accept : s.closesFd (.accept fd) = none ∧ s.uses (.accept fd) = none := by
  unfold closesFd uses closes
  cases s.ctrl <;> exact ⟨rfl, rfl⟩

theorem touches_of_run (h : s.run parse = some t) : s.Touches .run t := by
  unfold run at h
  split at h
  · rename_i fd c hctrl
    split at h <;> cases h
    · rename_i hpool
      apply Touches.closes _ (serving_of_ctrl hctrl)
      · simp [closes, hctrl, hpool]
      · simp [uses, hctrl, hpool]
      · rfl
      · exact Or.inr ⟨by simp [refuses], rfl⟩
    · rename_i b pool hpool
      apply Touches.stays _ (serving_of_ctrl hctrl)
      · simp [closes, hctrl, hpool]
      · simp [uses, hctrl, hpool]
      · rfl
      · exact Or.inl ⟨rfl, by rw [hctrl]; rfl⟩
  · rename_i w loop length reqs hctrl
    apply Touches.stays _ (serving_of_ctrl hctrl)
    · simp [closes, hctrl]
    · simp [uses, hctrl]
    · split at h
      · cases h
        rfl
      · split_ifs at h <;> cases h <;> rfl
    · left
      rw [hctrl]
      split at h
      · cases h
        exact ⟨rfl, rfl⟩
      · split_ifs at h <;> cases h <;> exact ⟨rfl, rfl⟩
  · rename_i w held r todo hctrl
    cases h
    apply Touches.stays _ (serving_of_ctrl hctrl)
    · simp [closes, hctrl]
    · simp [uses, hctrl]
    · unfold request
      split <;> rfl
    · left
      rw [hctrl]
      unfold request
      split <;> exact ⟨rfl, rfl⟩
  · rename_i w held hctrl
    cases h
    apply Touches.stays _ (serving_of_ctrl hctrl)
    · simp [closes, hctrl]
    · simp [uses, hctrl]
    · rfl
    · exact Or.inl ⟨rfl, by rw [hctrl]; rfl⟩
  · rename_i fd c hctrl
    split_ifs at h
    cases h
    apply Touches.stays _ (serving_of_ctrl hctrl)
    · simp [closes, hctrl]
    · simp [uses, hctrl]
    · rfl
    · right
      rw [hctrl]
      exact ⟨rfl, fun hreceiving => by cases hreceiving⟩
  · cases h

theorem touches_of_received {w : Receiving} {bytes : List UInt8} (hctrl : s.ctrl = .recv w) :
    s.Touches (.received bytes) (s.received w bytes) := by
  unfold received
  split_ifs with hnil
  · apply Touches.closes _ (serving_of_ctrl hctrl)
    · simp [closes, hctrl, hnil]
    · simp [uses, hctrl]
    · rfl
    · exact Or.inr ⟨by simp [refuses], rfl⟩
  · apply Touches.stays _ (serving_of_ctrl hctrl)
    · simp [closes, hctrl, hnil]
    · simp [uses, hctrl]
    · rfl
    · exact Or.inl ⟨rfl, by rw [hctrl]; rfl⟩

theorem touches_of_recvFailed {w : Receiving} {errno : ℕ} (hctrl : s.ctrl = .recv w) :
    s.Touches (.recvFailed errno) (s.recvFailed w errno) := by
  unfold recvFailed
  split_ifs with hagain hintr
  · apply Touches.stays _ (serving_of_ctrl hctrl)
    · simp [closes, hctrl, hagain]
    · simp [uses, hctrl]
    · rfl
    · exact Or.inr ⟨rfl, fun _ => by simp [uses, hctrl]⟩
  · apply Touches.stays _ (serving_of_ctrl hctrl)
    · simp [closes, hctrl, hintr]
    · simp [uses, hctrl]
    · rfl
    · exact Or.inl ⟨rfl, by rw [hctrl]; rfl⟩
  · apply Touches.closes _ (serving_of_ctrl hctrl)
    · simp [closes, hctrl, hagain, hintr]
    · simp [uses, hctrl]
    · rfl
    · exact Or.inr ⟨by simp [refuses], rfl⟩

theorem touches_of_responded {w : Receiving} {held todo : List MRequest} {out : BufId} {remain : ℤ}
    {o : SysResult} (hctrl : s.ctrl = .doResponse w held todo out remain) :
    s.Touches (.sent o) (s.responded w held todo out remain o) := by
  unfold responded
  cases ho : directSend o with
  | none =>
    apply Touches.closes _ (serving_of_ctrl hctrl)
    · simp [closes, hctrl, ho]
    · simp [uses, hctrl]
    · rfl
    · exact Or.inl ⟨by simp [refuses, hctrl, ho], rfl, rfl⟩
  | some k =>
    apply Touches.stays _ (serving_of_ctrl hctrl)
    · simp [closes, hctrl, ho]
    · simp [uses, hctrl]
    · dsimp only
      split_ifs <;> rfl
    · left
      rw [hctrl]
      dsimp only
      split_ifs <;> exact ⟨rfl, rfl⟩

theorem touches_of_flushed {fd : ℤ} {c : ConnId} {data : Region} {r : MReadBuf} {o : SysResult}
    (hctrl : s.ctrl = .sendBuf fd c) (hnext : (s.obj c).sendBuf.next = some (data, r)) :
    s.Touches (.sent o) (s.flushed fd c data r o) := by
  unfold flushed
  cases ho : queuedSend r data.size o with
  | none =>
    apply Touches.closes _ (serving_of_ctrl hctrl)
    · simp [closes, hctrl, hnext, ho]
    · simp [uses, hctrl]
    · rfl
    · exact Or.inr ⟨by simp [refuses, hctrl], rfl⟩
  | some p =>
    apply Touches.stays _ (serving_of_ctrl hctrl)
    · simp [closes, hctrl, hnext, ho]
    · simp [uses, hctrl]
    · rfl
    · exact Or.inl ⟨serving_of_ctrl hctrl, rfl⟩

/-- The thread begins to serve the descriptor that an event is for. -/
theorem Touches.entered (h : s.Touches e t) (hctrl : s.ctrl = .idle) (p : ℤ × ConnId)
    (hp : t.ctrl.serving = some p) : e = .epollin p.1 ∨ e = .epollout p.1 := by
  cases h with
  | accepts fd he _ ht =>
    rw [ht] at hp
    unfold createConn at hp
    split_ifs at hp
    · rw [addConn_ctrl, hctrl] at hp
      cases hp
    · rw [hctrl] at hp
      cases hp
  | absent fd he _ hfd hcloses ht =>
    rw [ht, hctrl] at hp
    cases hp
  | enters fd c he _ hfd huses hcloses hconns hserving =>
    rw [hserving, Option.some.injEq] at hp
    rw [← hp]
    exact he
  | stays q hserving =>
    rw [hctrl] at hserving
    cases hserving
  | closes q hserving =>
    rw [hctrl] at hserving
    cases hserving

theorem closes_of_refuses (h : s.refuses e = true) : s.closes e ≠ none := by
  unfold refuses at h
  split at h
  · rename_i hctrl
    have ho : directSend _ = none := of_decide_eq_true h
    simp [closes, hctrl, ho]
  · cases h

theorem touches_of_step (h : s.step parse e = some t) : s.Touches e t := by
  unfold step at h
  split at h
  · cases h
    exact .accepts _ rfl ‹_› rfl
  · rename_i fd hctrl
    split at h <;> cases h
    · rename_i hfd
      have hcloses : s.closesFd (.epollin fd) = some fd := by simp [closesFd, uses, hctrl, hfd]
      exact .absent fd (Or.inl rfl) hctrl hfd hcloses (closeConn_of_none hfd)
    · rename_i c hfd
      have huses : s.uses (.epollin fd) = none := by simp [uses, hctrl, hfd]
      have hcloses : s.closesFd (.epollin fd) = none := by simp [closesFd, hctrl, huses]
      exact .enters fd c (Or.inl rfl) hctrl hfd huses hcloses rfl rfl
  · rename_i fd hctrl
    split at h <;> cases h
    · rename_i hfd
      have hcloses : s.closesFd (.epollout fd) = some fd := by simp [closesFd, uses, hctrl, hfd]
      exact .absent fd (Or.inr rfl) hctrl hfd hcloses (closeConn_of_none hfd)
    · rename_i c hfd
      have huses : s.uses (.epollout fd) = none := by simp [uses, hctrl, hfd]
      have hcloses : s.closesFd (.epollout fd) = none := by simp [closesFd, hctrl, huses]
      exact .enters fd c (Or.inr rfl) hctrl hfd huses hcloses rfl rfl
  · exact touches_of_run h
  · split_ifs at h
    cases h
    exact touches_of_received ‹_›
  · split_ifs at h
    cases h
    exact touches_of_recvFailed ‹_›
  · split_ifs at h
    cases h
    exact touches_of_responded ‹_›
  · split at h
    · split_ifs at h
      cases h
      exact touches_of_flushed ‹_› ‹_›
    · cases h
  · cases h

end Calls

end Server

/-- What the kernel and the server have done with a descriptor: `closed` means that `CloseConn` has
returned, and `accept` has not returned the number since. -/
inductive Descriptor
  | unused
  | opened
  | closed
  deriving Repr, DecidableEq

/-- The server in the loop of `accept_run`; `output` is the descriptor of an event whose `EPOLLOUT`
is still to be handled, and `misused` says that a call has been made on a closed descriptor. -/
structure Dispatch where
  server : Server
  fds : ℤ → Descriptor
  output : Option ℤ
  misused : Bool

/-- `ready` is an event of `epoll_wait`, with whether it reports `EPOLLIN` and `EPOLLOUT`; `go` is
whatever happens until `recv_run` or `send_run` returns. -/
inductive LoopEvent
  | accept (fd : ℤ)
  | ready (fd : ℤ) (input output : Bool)
  | sendRun
  | go (e : Event)
  deriving Repr, DecidableEq

namespace Dispatch
open Server

def start : Dispatch := ⟨.new, fun _ => .unused, none, false⟩

/-- A step of the server. -/
def turn (parse : List UInt8 → RpcHeader) (s : Dispatch) (e : Event) : Option Dispatch :=
  (s.server.step parse e).map fun server =>
    { s with
      server := server
      fds := match s.server.closesFd e with
        | some fd => Function.update s.fds fd .closed
        | none => s.fds
      misused := s.misused || (s.server.uses e).any fun fd => s.fds fd = .closed }

/-- The server is in `accept_run` itself. -/
def AtLoop (s : Dispatch) : Prop := s.server.ctrl = .idle

/-- The server is back in `epoll_wait`, or comes to the next event. -/
def Waiting (s : Dispatch) : Prop := s.AtLoop ∧ s.output = none

instance (s : Dispatch) : Decidable s.AtLoop := inferInstanceAs (Decidable (_ = _))

instance (s : Dispatch) : Decidable s.Waiting := inferInstanceAs (Decidable (_ ∧ _))

/-- `none` where the event cannot happen: `accept` returns a descriptor that is not in use, and
`epoll_wait` reports those that are. -/
def step (parse : List UInt8 → RpcHeader) (s : Dispatch) : LoopEvent → Option Dispatch
  | .accept fd =>
    if s.Waiting ∧ s.fds fd ≠ .opened then
      (s.turn parse (.accept fd)).map fun t => { t with fds := Function.update t.fds fd .opened }
    else none
  | .ready fd input output =>
    if s.Waiting ∧ s.fds fd = .opened then
      if input then
        (s.turn parse (.epollin fd)).map fun t => { t with output := if output then some fd else none }
      else if output then s.turn parse (.epollout fd)
      else some s
    else none
  | .sendRun =>
    match s.output with
    | some fd =>
      if s.AtLoop then (s.turn parse (.epollout fd)).map fun t => { t with output := none } else none
    | none => none
  | .go e => if s.AtLoop then none else s.turn parse e

/-- `do_response` does not close the connection, and neither does `recv_run` where `EPOLLOUT` is
still to be handled. -/
def Careful (s : Dispatch) : LoopEvent → Prop
  | .go e => s.server.refuses e = false ∧ (s.server.closes e ≠ none → s.output = none)
  | _ => True

instance (s : Dispatch) (e : LoopEvent) : Decidable (s.Careful e) := by
  cases e <;> unfold Careful <;> infer_instance

section Runs

variable {parse : List UInt8 → RpcHeader} {s t : Dispatch} {e : Event} {fd : ℤ}

theorem turn_spec (h : s.turn parse e = some t) : s.server.Touches e t.server ∧
    t.output = s.output ∧
    t.fds = (match s.server.closesFd e with
      | some fd => Function.update s.fds fd .closed
      | none => s.fds) ∧
    t.misused = (s.misused || (s.server.uses e).any fun fd => s.fds fd = .closed) := by
  have hspec := (Option.map_eq_some_iff.mp h).choose_spec
  rw [← hspec.2]
  exact ⟨touches_of_step hspec.1, rfl, rfl, rfl⟩

theorem misused_of_uses (h : s.turn parse e = some t) (huses : s.server.uses e = some fd)
    (hfd : s.fds fd = .closed) : t.misused = true := by
  rw [(turn_spec h).2.2.2, huses, Option.any_some, decide_eq_true hfd, Bool.or_true]

theorem misused_turn (h : s.turn parse e = some t) (hmis : s.misused = true) : t.misused = true := by
  rw [(turn_spec h).2.2.2, hmis, Bool.true_or]

/-- A call is not a misuse where the descriptor is open. -/
theorem misused_of_opened (h : s.turn parse e = some t) (hmis : s.misused = false)
    (huses : ∀ fd ∈ s.server.uses e, s.fds fd = .opened) : t.misused = false := by
  rw [(turn_spec h).2.2.2, hmis, Bool.false_or]
  cases hu : s.server.uses e with
  | none => rfl
  | some fd =>
    rw [Option.any_some, huses fd hu]
    rfl

/-- The descriptors in the map are those that are open, and an `EPOLLOUT` that is still to be handled
is for the descriptor that is served. -/
structure Registered (s : Dispatch) : Prop where
  opened : ∀ fd, s.fds fd = .opened ↔ s.server.conns fd ≠ none
  served : ∀ p, s.server.ctrl.serving = some p → ∀ fd ∈ s.output, fd = p.1

theorem opened_close {fds : ℤ → Descriptor} {conns : ℤ → Option ConnId}
    (h : ∀ fd, fds fd = .opened ↔ conns fd ≠ none) (a fd : ℤ) :
    Function.update fds a .closed fd = .opened ↔ Function.update conns a none fd ≠ none := by
  by_cases hfd : fd = a
  · rw [hfd, Function.update_self, Function.update_self]
    exact iff_of_false nofun (not_not.mpr rfl)
  · rw [Function.update_of_ne hfd, Function.update_of_ne hfd]
    exact h fd

theorem Registered.turn (h : s.Registered) (ht : s.turn parse e = some t)
    (haccept : s.AtLoop → ∀ fd, e ≠ .accept fd)
    (houtput : s.AtLoop → ∀ fd, e = .epollin fd ∨ e = .epollout fd → ∀ o ∈ s.output, o = fd) :
    t.Registered := by
  have hspec := turn_spec ht
  have hserved (p : ℤ × ConnId) (hp : s.server.ctrl.serving = some p)
      (hnext : t.server.ctrl.serving = some p ∨ t.server.ctrl = .idle) :
      ∀ q, t.server.ctrl.serving = some q → ∀ fd ∈ t.output, fd = q.1 := by
    intro q hq
    rw [hspec.2.1]
    cases hnext with
    | inl hsame =>
      rw [hsame, Option.some.injEq] at hq
      rw [← hq]
      exact h.served p hp
    | inr hidle =>
      rw [hidle] at hq
      cases hq
  cases hspec.1 with
  | accepts fd he hctrl => exact absurd he (haccept hctrl fd)
  | absent fd he hctrl hfd hcloses ht =>
    refine ⟨?_, ?_⟩
    · intro fd'
      rw [hspec.2.2.1, hcloses, ht, ← Function.update_eq_self fd s.server.conns, hfd]
      exact opened_close h.opened fd fd'
    · rw [ht, hspec.2.1]
      exact h.served
  | enters fd c he hctrl hfd huses hcloses hconns hserving =>
    refine ⟨?_, ?_⟩
    · rw [hspec.2.2.1, hcloses, hconns]
      exact h.opened
    · intro p hp
      rw [hserving, Option.some.injEq] at hp
      rw [← hp, hspec.2.1]
      exact houtput hctrl fd he
  | stays p hserving hcloses huses hconns hnext =>
    refine ⟨?_, hserved p hserving (hnext.imp And.left And.left)⟩
    rw [hspec.2.2.1, closesFd_of_serving hserving, if_pos hcloses, hconns]
    exact h.opened
  | closes p hserving hcloses huses hconns hnext =>
    refine ⟨?_, hserved p hserving (hnext.imp (fun h => h.2.1) And.right)⟩
    rw [hspec.2.2.1, closesFd_of_serving hserving, if_neg hcloses, huses, hconns]
    exact opened_close h.opened p.1

theorem Registered.accept (h : s.Registered) (hwait : s.Waiting) (hfd : s.fds fd ≠ .opened)
    (ht : s.turn parse (.accept fd) = some t) :
    Registered { t with fds := Function.update t.fds fd .opened } := by
  have hspec := turn_spec ht
  have hnone : s.server.conns fd = none := by
    by_contra hsome
    exact hfd ((h.opened fd).mpr hsome)
  cases hspec.1 with
  | accepts fd' he hctrl hcreate =>
    cases he
    unfold createConn at hcreate
    rw [if_pos hnone] at hcreate
    refine ⟨?_, ?_⟩
    · intro fd'
      dsimp only
      rw [hspec.2.2.1, closesFd_accept.1, hcreate, addConn_conns]
      by_cases heq : fd' = fd
      · rw [heq, Function.update_self, Function.update_self]
        exact iff_of_true rfl nofun
      · rw [Function.update_of_ne heq, Function.update_of_ne heq]
        exact h.opened fd'
    · intro p hp
      dsimp only at hp
      rw [hcreate, addConn_ctrl, hctrl] at hp
      cases hp
  | absent fd' he =>
    cases he with
    | inl heq => cases heq
    | inr heq => cases heq
  | enters fd' c he =>
    cases he with
    | inl heq => cases heq
    | inr heq => cases heq
  | stays p hserving =>
    rw [hwait.1] at hserving
    cases hserving
  | closes p hserving =>
    rw [hwait.1] at hserving
    cases hserving

/-- Everything that a step can do. -/
inductive Dispatched (parse : List UInt8 → RpcHeader) (s : Dispatch) :
    LoopEvent → Dispatch → Prop
  | accept {fd : ℤ} {t : Dispatch} (hwait : s.Waiting) (hfd : s.fds fd ≠ .opened)
      (ht : s.turn parse (.accept fd) = some t) :
      Dispatched parse s (.accept fd) { t with fds := Function.update t.fds fd .opened }
  | readable {fd : ℤ} {input output : Bool} {out : Option ℤ} {t : Dispatch} (hwait : s.Waiting)
      (hfd : s.fds fd = .opened) (hout : ∀ o ∈ out, o = fd)
      (ht : s.turn parse (.epollin fd) = some t) :
      Dispatched parse s (.ready fd input output) { t with output := out }
  | writable {fd : ℤ} {input output : Bool} {t : Dispatch} (hwait : s.Waiting)
      (hfd : s.fds fd = .opened) (ht : s.turn parse (.epollout fd) = some t) :
      Dispatched parse s (.ready fd input output) t
  | skip {fd : ℤ} {input output : Bool} (hwait : s.Waiting) :
      Dispatched parse s (.ready fd input output) s
  | sendRun {fd : ℤ} {t : Dispatch} (hloop : s.AtLoop) (hfd : s.output = some fd)
      (ht : s.turn parse (.epollout fd) = some t) :
      Dispatched parse s .sendRun { t with output := none }
  | go {e : Event} {t : Dispatch} (hloop : ¬ s.AtLoop) (ht : s.turn parse e = some t) :
      Dispatched parse s (.go e) t

theorem dispatched_of_step {e : LoopEvent} (h : s.step parse e = some t) : s.Dispatched parse e t := by
  cases e with
  | accept fd =>
    obtain ⟨hcond, hmap⟩ := Option.ite_none_right_eq_some.mp h
    have hturn := (Option.map_eq_some_iff.mp hmap).choose_spec
    rw [← hturn.2]
    exact .accept hcond.1 hcond.2 hturn.1
  | ready fd input output =>
    obtain ⟨hcond, hready⟩ := Option.ite_none_right_eq_some.mp h
    cases input with
    | true =>
      have hturn := (Option.map_eq_some_iff.mp hready).choose_spec
      rw [← hturn.2]
      apply Dispatched.readable hcond.1 hcond.2 _ hturn.1
      intro o ho
      cases output with
      | true => exact (Option.some.inj ho).symm
      | false => cases ho
    | false =>
      cases output with
      | true => exact .writable hcond.1 hcond.2 hready
      | false =>
        cases hready
        exact .skip hcond.1
  | sendRun =>
    simp only [Dispatch.step] at h
    split at h
    · obtain ⟨hloop, hmap⟩ := Option.ite_none_right_eq_some.mp h
      have hturn := (Option.map_eq_some_iff.mp hmap).choose_spec
      rw [← hturn.2]
      exact .sendRun hloop ‹_› hturn.1
    · cases h
  | go e =>
    obtain ⟨hloop, hturn⟩ := Option.ite_none_left_eq_some.mp h
    exact .go hloop hturn

theorem Registered.step {e : LoopEvent} (h : s.Registered) (hstep : s.step parse e = some t) :
    t.Registered := by
  have hnone (hwait : s.Waiting) (fd o : ℤ) (ho : o ∈ s.output) : o = fd := by
    rw [hwait.2] at ho
    cases ho
  cases dispatched_of_step hstep with
  | accept hwait hfd ht => exact h.accept hwait hfd ht
  | readable hwait hfd hout ht =>
    have hreg := h.turn ht (fun _ => nofun) fun _ fd _ => hnone hwait fd
    refine ⟨hreg.opened, ?_⟩
    intro p hp o ho
    cases (turn_spec ht).1.entered hwait.1 p hp with
    | inl heq =>
      rw [Event.epollin.injEq] at heq
      rw [← heq]
      exact hout o ho
    | inr heq => cases heq
  | writable hwait hfd ht => exact h.turn ht (fun _ => nofun) fun _ fd _ => hnone hwait fd
  | skip => exact h
  | sendRun hloop hfd ht =>
    have hreg := h.turn ht (fun _ => nofun) fun _ fd' he o ho => by
      cases he with
      | inl heq => cases heq
      | inr heq =>
        rw [Event.epollout.injEq] at heq
        rw [hfd, heq] at ho
        exact (Option.some.inj ho).symm
    exact ⟨hreg.opened, fun _ _ _ ho => nomatch ho⟩
  | go hloop ht =>
    exact h.turn ht (fun hidle => absurd hidle hloop) fun hidle => absurd hidle hloop

/-- What is served or has an `EPOLLOUT` to come is open, and no call was a misuse. -/
structure Tidy (s : Dispatch) : Prop where
  registered : s.Registered
  serving : ∀ p, s.server.ctrl.serving = some p → s.fds p.1 = .opened
  output : ∀ fd ∈ s.output, s.fds fd = .opened
  clean : s.misused = false

/-- A closed descriptor is still being received from, or has an `EPOLLOUT` to come. -/
def Doomed (s : Dispatch) : Prop :=
  ∃ fd, s.fds fd = .closed ∧
    ((∃ p, s.server.ctrl.serving = some p ∧ p.1 = fd ∧ s.server.ctrl.receiving = true) ∨
      s.AtLoop ∧ s.output = some fd)

theorem tidy_start : start.Tidy where
  registered := ⟨fun _ => iff_of_false nofun (not_not.mpr rfl), nofun⟩
  serving := nofun
  output := nofun
  clean := rfl

theorem not_doomed_of_waiting (h : s.Waiting) : ¬ s.Doomed := by
  intro hdoomed
  obtain ⟨fd, hfd, ⟨p, hp, -⟩ | ⟨-, hout⟩⟩ := hdoomed
  · rw [h.1] at hp
    cases hp
  · rw [h.2] at hout
    cases hout

section Serving

variable {p : ℤ × ConnId}

/-- A turn for an open descriptor is clean, and leaves it open unless it returns to the loop. -/
theorem Tidy.turn (h : s.Tidy) (ht : s.turn parse e = some t)
    (hfd : s.AtLoop → ∀ fd, e = .epollin fd ∨ e = .epollout fd → s.fds fd = .opened)
    (haccept : s.AtLoop → ∀ fd, e ≠ .accept fd)
    (hc : s.server.refuses e = false ∧ (s.server.closes e ≠ none → s.output = none)) :
    (∀ p, t.server.ctrl.serving = some p → t.fds p.1 = .opened) ∧
      (∀ fd ∈ t.output, t.fds fd = .opened) ∧ t.misused = false := by
  have hspec := turn_spec ht
  cases hspec.1 with
  | accepts fd he hctrl => exact absurd he (haccept hctrl fd)
  | absent fd he hctrl hnone =>
    exact absurd hnone ((h.registered.opened fd).mp (hfd hctrl fd he))
  | enters fd c he hctrl hsome huses hcloses hconns hserving =>
    have hfds : t.fds = s.fds := by rw [hspec.2.2.1, hcloses]
    refine ⟨?_, ?_, ?_⟩
    · intro p hp
      rw [hserving, Option.some.injEq] at hp
      rw [hfds, ← hp]
      exact hfd hctrl fd he
    · rw [hfds, hspec.2.1]
      exact h.output
    · apply misused_of_opened ht h.clean
      rw [huses]
      exact nofun
  | stays p hserving hcloses huses hconns hnext =>
    have hfds : t.fds = s.fds := by
      rw [hspec.2.2.1, closesFd_of_serving hserving, if_pos hcloses]
    refine ⟨?_, ?_, ?_⟩
    · intro q hq
      cases hnext with
      | inl hsame =>
        rw [hfds]
        apply h.serving
        rw [hserving, ← hsame.1, hq]
      | inr hidle =>
        rw [hidle.1] at hq
        cases hq
    · rw [hfds, hspec.2.1]
      exact h.output
    · apply misused_of_opened ht h.clean
      intro fd hmem
      rw [huses fd hmem]
      exact h.serving p hserving
  | closes p hserving hcloses huses hconns hnext =>
    have hidle : t.server.ctrl = .idle := by
      apply (hnext.resolve_left _).2
      rw [hc.1]
      exact fun hrefuse => nomatch hrefuse.1
    refine ⟨?_, ?_, ?_⟩
    · intro q hq
      rw [hidle] at hq
      cases hq
    · rw [hspec.2.1, hc.2 hcloses]
      exact nofun
    · apply misused_of_opened ht h.clean
      rw [huses]
      intro fd hmem
      rw [← Option.some.inj hmem]
      exact h.serving p hserving

/-- Where a turn of `recv_run` or `send_run` closes a descriptor that it must not close yet, the
descriptor is doomed. -/
theorem doomed_of_careless (h : s.Tidy) (hloop : ¬ s.AtLoop) (ht : s.turn parse e = some t)
    (hc : ¬ (s.server.refuses e = false ∧ (s.server.closes e ≠ none → s.output = none))) :
    t.Doomed := by
  have hspec := turn_spec ht
  cases hspec.1 with
  | accepts _ _ hctrl => exact absurd hctrl hloop
  | absent _ _ hctrl => exact absurd hctrl hloop
  | enters _ _ _ hctrl => exact absurd hctrl hloop
  | stays p hserving hcloses =>
    apply absurd _ hc
    refine ⟨?_, fun hclose => absurd hcloses hclose⟩
    by_contra hrefuse
    exact closes_of_refuses (Bool.eq_true_of_not_eq_false hrefuse) hcloses
  | closes p hserving hcloses huses hconns hnext =>
    have hclosed : t.fds p.1 = .closed := by
      rw [hspec.2.2.1, closesFd_of_serving hserving, if_neg hcloses, huses]
      exact Function.update_self ..
    refine ⟨p.1, hclosed, ?_⟩
    cases hnext with
    | inl hrefused => exact Or.inl ⟨p, hrefused.2.1, rfl, hrefused.2.2⟩
    | inr hidle =>
      right
      refine ⟨hidle.2, ?_⟩
      have hout : s.output ≠ none := by
        intro hnone
        exact hc ⟨hidle.1, fun _ => hnone⟩
      obtain ⟨fd, hfd⟩ := Option.ne_none_iff_exists'.mp hout
      rw [hspec.2.1, hfd, h.registered.served p hserving fd hfd]

/-- `recv_run` makes a call on the descriptor that it has closed, or goes on. -/
theorem Doomed.turn (hp : s.server.ctrl.serving = some p) (hfd : s.fds p.1 = .closed)
    (hrecv : s.server.ctrl.receiving = true) (ht : s.turn parse e = some t) :
    t.misused = true ∨ t.Doomed := by
  have hspec := turn_spec ht
  have hidle : s.server.ctrl ≠ .idle := by
    intro heq
    rw [heq] at hp
    cases hp
  cases hspec.1 with
  | accepts _ _ hctrl => exact absurd hctrl hidle
  | absent _ _ hctrl => exact absurd hctrl hidle
  | enters _ _ _ hctrl => exact absurd hctrl hidle
  | closes q hserving hcloses huses =>
    left
    rw [hp, Option.some.injEq] at hserving
    rw [← hserving] at huses
    exact misused_of_uses ht huses hfd
  | stays q hserving hcloses huses hconns hnext =>
    rw [hp, Option.some.injEq] at hserving
    rw [← hserving] at huses hnext
    cases hu : s.server.uses e with
    | some fd =>
      left
      rw [huses fd hu] at hu
      exact misused_of_uses ht hu hfd
    | none =>
      right
      have hsame := hnext.resolve_right fun h => h.2 hrecv hu
      have hfds : t.fds = s.fds := by
        rw [hspec.2.2.1, closesFd_of_serving hp, if_pos hcloses]
      refine ⟨p.1, ?_, Or.inl ⟨p, hsame.1, rfl, by rw [hsame.2, hrecv]⟩⟩
      rw [hfds, hfd]

end Serving

theorem fd_of_event {a b : ℤ} (ha : e = .epollin a ∨ e = .epollout a)
    (hb : e = .epollin b ∨ e = .epollout b) : b = a := by
  cases ha with
  | inl heq =>
    rw [heq] at hb
    exact (Event.epollin.inj (hb.resolve_right nofun)).symm
  | inr heq =>
    rw [heq] at hb
    exact (Event.epollout.inj (hb.resolve_left nofun)).symm

/-- An event for an open descriptor closes nothing by itself. -/
theorem fds_of_entering (h : s.Registered) (hloop : s.AtLoop)
    (he : e = .epollin fd ∨ e = .epollout fd) (hfd : s.fds fd = .opened)
    (ht : s.turn parse e = some t) : t.fds = s.fds := by
  have hspec := turn_spec ht
  cases hspec.1 with
  | accepts fd' he' =>
    rw [hspec.2.2.1, he', closesFd_accept.1]
  | absent fd' he' hctrl hnone =>
    rw [fd_of_event he he'] at hnone
    exact absurd hnone ((h.opened fd).mp hfd)
  | enters _ _ _ _ _ _ hcloses => rw [hspec.2.2.1, hcloses]
  | stays p hserving =>
    rw [hloop] at hserving
    cases hserving
  | closes p hserving =>
    rw [hloop] at hserving
    cases hserving

/-- An event of the loop for an open descriptor keeps things tidy. -/
theorem Tidy.enter (h : s.Tidy) (hloop : s.AtLoop) (he : e = .epollin fd ∨ e = .epollout fd)
    (hfd : s.fds fd = .opened) (ht : s.turn parse e = some t) :
    (∀ p, t.server.ctrl.serving = some p → t.fds p.1 = .opened) ∧
      (∀ fd ∈ t.output, t.fds fd = .opened) ∧ t.misused = false := by
  apply h.turn ht
  · intro _ fd' he'
    rw [fd_of_event he he', hfd]
  · intro _ fd' heq
    rw [heq] at he
    cases he with
    | inl h => cases h
    | inr h => cases h
  · unfold refuses closes
    rw [hloop]
    cases e <;> exact ⟨rfl, fun hclose => absurd rfl hclose⟩

theorem Tidy.step {e : LoopEvent} (h : s.Tidy) (hc : s.Careful e) (hstep : s.step parse e = some t) :
    t.Tidy := by
  have hreg := h.registered.step hstep
  cases dispatched_of_step hstep with
  | @accept fd t hwait hfd ht =>
    have hspec := turn_spec ht
    have hclean : t.misused = false := by
      apply misused_of_opened ht h.clean
      rw [closesFd_accept.2]
      exact nofun
    refine ⟨hreg, ?_, ?_, hclean⟩
    · intro p hp
      cases hspec.1.entered hwait.1 p hp with
      | inl heq => cases heq
      | inr heq => cases heq
    · intro o ho
      have hnone : t.output = none := by rw [hspec.2.1, hwait.2]
      dsimp only at ho
      rw [hnone] at ho
      cases ho
  | @readable fd input output out t hwait hfd hout ht =>
    have hturn := h.enter hwait.1 (Or.inl rfl) hfd ht
    refine ⟨hreg, hturn.1, ?_, hturn.2.2⟩
    intro o ho
    dsimp only
    rw [hout o ho, fds_of_entering h.registered hwait.1 (Or.inl rfl) hfd ht, hfd]
  | writable hwait hfd ht =>
    have hturn := h.enter hwait.1 (Or.inr rfl) hfd ht
    exact ⟨hreg, hturn.1, hturn.2.1, hturn.2.2⟩
  | skip => exact h
  | sendRun hloop hfd ht =>
    have hturn := h.enter hloop (Or.inr rfl) (h.output _ hfd) ht
    exact ⟨hreg, hturn.1, nofun, hturn.2.2⟩
  | go hloop ht =>
    have hturn := h.turn ht (fun hidle => absurd hidle hloop)
      (fun hidle => absurd hidle hloop) hc
    exact ⟨hreg, hturn.1, hturn.2.1, hturn.2.2⟩

theorem misused_step {e : LoopEvent} (h : s.misused = true) (hstep : s.step parse e = some t) :
    t.misused = true := by
  cases dispatched_of_step hstep with
  | accept _ _ ht =>
    have hmis := misused_turn ht h
    exact hmis
  | readable _ _ _ ht =>
    have hmis := misused_turn ht h
    exact hmis
  | writable _ _ ht => exact misused_turn ht h
  | skip => exact h
  | sendRun _ _ ht =>
    have hmis := misused_turn ht h
    exact hmis
  | go _ ht => exact misused_turn ht h

theorem Doomed.step {e : LoopEvent} (hreg : s.Registered) (h : s.Doomed)
    (hstep : s.step parse e = some t) : t.misused = true ∨ t.Doomed := by
  cases dispatched_of_step hstep with
  | accept hwait => exact absurd h (not_doomed_of_waiting hwait)
  | readable hwait => exact absurd h (not_doomed_of_waiting hwait)
  | writable hwait => exact absurd h (not_doomed_of_waiting hwait)
  | skip hwait => exact absurd h (not_doomed_of_waiting hwait)
  | @sendRun fd t hloop hfd ht =>
    obtain ⟨fd', hclosed, ⟨p, hp, -⟩ | ⟨-, hout⟩⟩ := h
    · rw [hloop] at hp
      cases hp
    · left
      rw [hfd, Option.some.injEq] at hout
      have hnone : s.server.conns fd = none := by
        by_contra hsome
        have hopen := (hreg.opened fd).mpr hsome
        rw [hout, hclosed] at hopen
        cases hopen
      have huses : s.server.uses (.epollout fd) = some fd := by
        unfold uses
        rw [hloop]
        exact if_pos hnone
      have hmis := misused_of_uses ht huses (by rw [hout, hclosed])
      exact hmis
  | go hloop ht =>
    obtain ⟨fd, hclosed, ⟨p, hp, hfd, hrecv⟩ | ⟨hidle, -⟩⟩ := h
    · rw [← hfd] at hclosed
      exact Doomed.turn hp hclosed hrecv ht
    · exact absurd hidle hloop

/-- A careless step is the beginning of a call on a closed descriptor. -/
theorem careful_or_doomed (h : Reachable (Dispatch.step parse) (fun _ _ => True) start s) :
    s.Registered ∧ (Reachable (Dispatch.step parse) Careful start s ∧ s.Tidy ∨ s.misused = true ∨
      s.Doomed) := by
  induction h with
  | init => exact ⟨tidy_start.registered, Or.inl ⟨.init, tidy_start⟩⟩
  | @step s t e _ _ hstep ih =>
    refine ⟨ih.1.step hstep, ?_⟩
    obtain ⟨hreach, htidy⟩ | hmis | hdoomed := ih.2
    · by_cases hc : s.Careful e
      · exact Or.inl ⟨.step hreach hc hstep, htidy.step hc hstep⟩
      · right
        right
        cases dispatched_of_step hstep with
        | go hloop ht => exact doomed_of_careless htidy hloop ht hc
        | _ => exact absurd trivial hc
    · exact Or.inr (Or.inl (misused_step hmis hstep))
    · exact Or.inr (Doomed.step ih.1 hdoomed hstep)

/-- A run is free of calls on closed descriptors as long as its steps are careful; and whenever it
comes back to `epoll_wait` without one they have been. -/
theorem closed_once (parse : List UInt8 → RpcHeader)
    (h : Reachable (step parse) (fun _ _ => True) start s) :
    (Reachable (step parse) Careful start s → s.misused = false) ∧
      (s.Waiting → s.misused = false → Reachable (step parse) Careful start s) := by
  constructor
  · intro hcareful
    have htidy : s.Tidy := by
      apply Reachable.invariant Tidy tidy_start _ hcareful
      intro s e t hs hc hstep
      exact hs.step hc hstep
    exact htidy.clean
  · intro hwait hclean
    cases (careful_or_doomed h).2 with
    | inl hcareful => exact hcareful.1
    | inr hdoomed =>
      cases hdoomed with
      | inl hmis =>
        rw [hclean] at hmis
        cases hmis
      | inr hdoomed => exact absurd hdoomed (not_doomed_of_waiting hwait)

/-- A descriptor is handed out again once the first connection on it is closed. -/
def reuseEvents : List LoopEvent :=
  [.accept 7, .ready 7 true true, .go .run, .go (.recvFailed EAGAIN), .sendRun, .go .run,
    .ready 7 true false, .go .run, .go (.received []), .accept 7]

theorem closed_once_reused : ∃ s, runIf (step clientParse) (fun _ _ => True) start reuseEvents = some s ∧
    s.Waiting ∧ (Reachable (step clientParse) Careful start s → s.misused = false) ∧
      (s.Waiting → s.misused = false → Reachable (step clientParse) Careful start s) := by
  have hrun : (runIf (step clientParse) (fun _ _ => True) start reuseEvents).map
      (fun s => decide s.Waiting) = some true := by decide +kernel
  obtain ⟨s, hs, hwait⟩ := Option.map_eq_some_iff.mp hrun
  exact ⟨s, hs, of_decide_eq_true hwait, closed_once clientParse (.of_runIf .init hs)⟩

/-- The peer closes a connection whose descriptor is reported writable as well: it is closed
twice. -/
theorem closed_twice : ¬ ∀ s, Reachable (step clientParse) (fun _ _ => True) start s →
    s.misused = false := by
  intro h
  have hrun : (runIf (step clientParse) (fun _ _ => True) start [.accept 7, .ready 7 true true,
      .go .run, .go (.received []), .sendRun]).map (fun s => s.misused) = some true := by
    decide +kernel
  obtain ⟨s, hs, hmis⟩ := Option.map_eq_some_iff.mp hrun
  rw [h s (.of_runIf .init hs)] at hmis
  cases hmis

end Runs

end Dispatch

namespace Server

/-- `send` has accepted nothing, and may be called again. -/
def transient (o : SysResult) : Prop :=
  o.ret < 0 ∧ (o.errno = EAGAIN ∨ o.errno = EWOULDBLOCK ∨ o.errno = EINTR)

/-- The connection is in the map still, and its queue delivers what it has been going to. -/
def Undisturbed (s t : Server) (fd : ℤ) (c : ConnId) : Prop :=
  t.conns fd = some c ∧ (t.obj c).sendBuf.pending t.store = (s.obj c).sendBuf.pending s.store

section Interrupted

variable {parse : List UInt8 → RpcHeader} {s : Server} {fd : ℤ} {c : ConnId} {o : SysResult}

/-- The one label of the `switch` in `SendBuf` is none of the three. -/
theorem queuedSend_of_transient (r : MReadBuf) (size : ℤ) (h : transient o) :
    queuedSend r size o = none := by
  have hlabel : o.errno ≠ EAGAIN ||| EWOULDBLOCK ||| EINTR := by
    intro heq
    have herr := h.2
    rw [heq] at herr
    exact absurd herr (by decide)
  unfold queuedSend
  rw [if_neg h.1.ne, if_pos h.1, if_neg hlabel]

/-- `SendBuf` returns from every transient error without the connection. -/
theorem transient_disturbs (hctrl : s.ctrl = .sendBuf fd c)
    (hnext : (s.obj c).sendBuf.next ≠ none) (ho : transient o) :
    ∃ t, s.step parse (.sent o) = some t ∧ t.ctrl = .idle ∧ ¬ s.Undisturbed t fd c := by
  obtain ⟨⟨data, r⟩, hdata⟩ := Option.ne_none_iff_exists'.mp hnext
  have hret := ho.1
  have hflushed : s.flushed fd c data r o = (s.closeConn fd).goto .idle := by
    unfold flushed
    rw [queuedSend_of_transient r data.size ho]
  have hstep : s.step parse (.sent o) = some ((s.closeConn fd).goto .idle) := by
    unfold step
    rw [hctrl, ← hflushed]
    simp only [hdata]
    exact if_pos (by omega)
  refine ⟨_, hstep, rfl, ?_⟩
  intro hundisturbed
  have hconn := hundisturbed.1
  rw [goto_conns, closeConn_conns, Function.update_self] at hconn
  cases hconn

/-- Ten bytes of the response to the message of `client.cpp` are sent, and the rest is queued. -/
def partEvents : List Event :=
  [.accept 7, .epollin 7, .run, .received clientMessage.encode, .run, .run, .run, .run, .run, .run,
    .run, .sent ⟨10, 0⟩, .run, .run, .recvFailed EAGAIN, .epollout 7]

/-- The socket has no room for them yet. -/
theorem transient_disturbs_part : ∃ s, runIf (step clientParse) (fun _ _ => True) .new partEvents =
    some s ∧ ∃ t, s.step clientParse (.sent ⟨-1, EAGAIN⟩) = some t ∧ t.ctrl = .idle ∧
      ¬ s.Undisturbed t 7 0 := by
  have hrun : (runIf (step clientParse) (fun _ _ => True) .new partEvents).map
      (fun s => (s.ctrl, (s.obj 0).sendBuf.next.isSome)) = some (.sendBuf 7 0, true) := by
    decide +kernel
  obtain ⟨s, hs, hstate⟩ := Option.map_eq_some_iff.mp hrun
  rw [Prod.mk.injEq] at hstate
  refine ⟨s, hs, ?_⟩
  apply transient_disturbs hstate.1
  · rw [← Option.isSome_iff_ne_none]
    exact hstate.2
  · exact ⟨by decide, Or.inl rfl⟩

theorem full_socket_disconnects : ¬ ∀ s t, Reachable (step clientParse) (fun _ _ => True) .new s →
    ∀ fd c o, s.ctrl = .sendBuf fd c → transient o → s.step clientParse (.sent o) = some t →
      s.Undisturbed t fd c := by
  intro h
  have hrun : (runIf (step clientParse) (fun _ _ => True) .new partEvents).map
      (fun s => (s.ctrl, (s.step clientParse (.sent ⟨-1, EAGAIN⟩)).map fun t => t.conns 7)) =
      some (.sendBuf 7 0, some none) := by decide +kernel
  obtain ⟨s, hs, hstate⟩ := Option.map_eq_some_iff.mp hrun
  rw [Prod.mk.injEq] at hstate
  obtain ⟨t, hstep, hconn⟩ := Option.map_eq_some_iff.mp hstate.2
  have hundisturbed := h s t (.of_runIf .init hs) 7 0 ⟨-1, EAGAIN⟩ hstate.1
    ⟨by decide, Or.inl rfl⟩ hstep
  rw [hundisturbed.1] at hconn
  cases hconn

end Interrupted

end Server

end MgRaffle.MgServer
