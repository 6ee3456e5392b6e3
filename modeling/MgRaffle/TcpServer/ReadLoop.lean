import MgRaffle.TcpServer.BufferPool
import MgRaffle.TcpServer.Stream

open Looping Stepping
open MgRaffle.MgServer (slice)

namespace MgRaffle.TcpServer

def EINTR : ℕ := 4

def EAGAIN : ℕ := 11

/-- What `recv` returns: no bytes at the end of the stream. -/
inductive RecvResult
  | received (data : List UInt8)
  | failed (errno : ℕ)
  deriving Repr, DecidableEq

/-- The connection is closed by its peer, or an error happened. -/
def RecvResult.Fatal : RecvResult → Prop
  | .received data => data = []
  | .failed errno => errno ≠ EAGAIN ∧ errno ≠ EINTR

instance (r : RecvResult) : Decidable r.Fatal := by
  cases r <;> unfold RecvResult.Fatal <;> infer_instance

/-- A connection with its stream and `_recieve_data_size`. -/
structure Peer where
  stream : SStream
  recieveDataSize : ℕ
  deriving Repr, DecidableEq

/-- What `on_read_some` works on. `handled` are the requests that the callback was called for;
`aborted` says that the process is gone. -/
structure Reading where
  peer : Peer
  pool : SBufferPool
  handled : List SBinaryRequest
  aborted : Bool

namespace Reading

/-- `release_connection`: the connection that `_conns.erase` deletes holds the server by a pointer
that owns it, and so deletes it with all connections and the pool. The server lies on the stack of
`main`, where `free` aborts the process. -/
def release (s : Reading) : Reading := { s with aborted := true }

/-- A handle of the parser's request keeps the guard of the buffer. -/
def keeps (s : Reading) (buf : ℕ) : Prop :=
  ∃ p ∈ s.peer.stream.parser, ∃ h ∈ p.request.readBuf, h.buf = buf

instance (s : Reading) (buf : ℕ) : Decidable (s.keeps buf) := by
  unfold keeps; infer_instance

/-- The guard goes out of scope, if the function ever returns. -/
def leave (s : Reading) (buf : ℕ) : Option Reading :=
  if s.aborted ∨ s.keeps buf then some s
  else (s.pool.giveBack buf).map fun pool => { s with pool := pool }

/-- The function returns, or the process ends, with nothing more to be read. -/
def back (s : Reading) (rest : List (RecvResult × Bool)) (buf : ℕ) : Option Reading :=
  if rest = [] then s.leave buf else none

/-- `on_read_some`, where `results` are what `recv` returns until the call comes back, and how
`malloc` answers if the pool makes a buffer. Each buffer is held while the function calls itself. -/
def onReadSome (origin : Origin) : List (RecvResult × Bool) → Reading → Option Reading
  | [], _ => none
  | (result, malloc) :: rest, s =>
    (s.pool.getBuffer 128 malloc).bind fun (buf, pool) =>
      let s := { s with pool := pool }
      match result with
      | .received [] => s.release.back rest buf
      | .received data =>
        if data.length ≤ (pool.buffers buf).remainSize then
          (s.peer.stream.splitMessage origin buf data []).bind fun (ok, stream, requests) =>
            let peer := { s.peer with
              stream := stream, recieveDataSize := s.peer.recieveDataSize + data.length }
            if ok then
              (onReadSome origin rest { s with peer := peer, handled := s.handled ++ requests }).bind
                fun t => t.leave buf
            else ({ s with peer := peer } : Reading).release.back rest buf
        else none
      | .failed errno =>
        if errno = EAGAIN then s.back rest buf
        else if errno = EINTR then (onReadSome origin rest s).bind fun t => t.leave buf
        else s.release.back rest buf

end Reading

/-- The connections of the server by their numbers. `deepest` is how many calls of `on_read_some`
were ever inside each other, and `ended` the connections for which `recv` failed or came to the end.
`aborted` is the connection whose release has ended the process. -/
structure Reads where
  peers : ℕ → Peer
  pool : SBufferPool
  handled : List SBinaryRequest
  deepest : ℕ
  ended : ℕ → Bool
  aborted : Option ℕ

/-- `on_read_some` is called for a connection, from `conn_callback`. -/
structure ReadCall where
  conn : ℕ
  results : List (RecvResult × Bool)
  deriving Repr, DecidableEq

namespace Reads

def start : Reads := ⟨fun _ => ⟨.new, 0⟩, .new fun _ => true, [], 0, fun _ => false, none⟩

/-- After the process has ended nothing is called. -/
def step (origin : ℕ → Origin) (s : Reads) (call : ReadCall) : Option Reads :=
  if s.aborted.isSome then none
  else
    (Reading.onReadSome (origin call.conn) call.results
      ⟨s.peers call.conn, s.pool, s.handled, false⟩).map fun t => {
        peers := Function.update s.peers call.conn t.peer
        pool := t.pool
        handled := t.handled
        deepest := max s.deepest call.results.length
        ended := Function.update s.ended call.conn
          (s.ended call.conn || call.results.any fun r => decide r.1.Fatal)
        aborted := if t.aborted then some call.conn else none }

/-- Every `malloc` succeeds. -/
def Supplied (_ : Reads) (call : ReadCall) : Prop := ∀ r ∈ call.results, r.2 = true

instance (s : Reads) (call : ReadCall) : Decidable (s.Supplied call) := by
  unfold Supplied; infer_instance

end Reads

/-- The buffers of 128 bytes, when `m` were made besides those of the constructor. -/
def stock (m : ℕ) : List ℕ := List.range 1000 ++ (List.range m).map (6000 + ·)

/-- Each buffer of 128 bytes is in its list or held, and nothing of it is used. -/
structure Stocked (p : SBufferPool) (held : List ℕ) (m : ℕ) : Prop where
  list : ∃ bufs, p.bufsets 128 = some ⟨128, bufs⟩ ∧ (bufs ++ held).Perm (stock m)
  created : p.created = 6000 + m
  unused : ∀ n ∈ stock m, p.buffers n = .new 128 true

section Pool

variable {p : SBufferPool} {held : List ℕ} {n m : ℕ}

theorem length_stock (m : ℕ) : (stock m).length = 1000 + m := by
  rw [stock, List.length_append, List.length_range, List.length_map, List.length_range]

theorem stock_succ (m : ℕ) : stock (m + 1) = stock m ++ [6000 + m] := by
  rw [stock, stock, List.range_succ (n := m), List.map_append, List.append_assoc]
  rfl

theorem lt_of_mem_stock (h : n ∈ stock m) : n < 6000 + m := by
  simp only [stock, List.mem_append, List.mem_range, List.mem_map] at h
  rcases h with h | ⟨i, hi, rfl⟩
  · omega
  · omega

theorem stocked_new : Stocked (.new fun _ => true) [] 0 where
  list := by
    have hfirst : SBufferPool.sizes.idxOf? 128 = some 0 := by decide
    have hinit : SBufferPool.initialList (fun _ => true) 128 0 = ⟨128, List.range 1000⟩ := by
      rw [SBufferPool.initialList, List.filter_eq_self.mpr]
      · simp only [mul_zero, zero_add, List.map_id']
      · intro n _
        rfl
    refine ⟨List.range 1000, ?_, ?_⟩
    · show (SBufferPool.sizes.idxOf? 128).map (SBufferPool.initialList (fun _ => true) 128) = _
      rw [hfirst, ← hinit]
      rfl
    · rw [List.append_nil, stock, List.range_zero, List.map_nil, List.append_nil]
  created := rfl
  unused := by
    intro n hn
    have hlt : n < 1000 := by simpa [stock] using hn
    show SBuffer.new (SBufferPool.sizes.getD (n / 1000) 0) true = _
    rw [Nat.div_eq_of_lt hlt]
    rfl

/-- `get_buffer` makes a buffer only where all of them are held. -/
theorem Stocked.take (h : Stocked p held m) : ∃ n p', p.getBuffer 128 true = some (n, p') ∧
    p'.buffers n = .new 128 true ∧ Stocked p' (n :: held) (max m (held.length + 1 - 1000)) := by
  obtain ⟨bufs, hbufs, hperm⟩ := h.list
  have hlen := hperm.length_eq
  rw [List.length_append, length_stock] at hlen
  have hsize : mallocSize 128 = 128 := rfl
  -- a list without buffers means that all of them are held, 1000 and those made since
  cases bufs with
  | nil =>
    rw [List.length_nil, zero_add] at hlen
    have hmax : max m (held.length + 1 - 1000) = m + 1 := by omega
    have hget : p.getBuffer 128 true = some (p.created, { p with
        buffers := Function.update p.buffers p.created (.new 128 true)
        created := p.created + 1 }) := by
      simp only [SBufferPool.getBuffer, hsize, hbufs, Option.map_some]
    refine ⟨_, _, hget, ?_, ?_⟩
    · exact Function.update_self _ _ _
    · rw [hmax]
      refine ⟨⟨[], hbufs, ?_⟩, ?_, ?_⟩
      · rw [stock_succ, h.created]
        exact (List.Perm.cons _ hperm).trans (List.perm_append_singleton _ _).symm
      · show p.created + 1 = 6000 + (m + 1)
        rw [h.created]
        rfl
      · intro n hn
        show Function.update p.buffers p.created _ n = _
        rw [stock_succ, List.mem_append, List.mem_singleton, ← h.created] at hn
        rcases hn with hn | rfl
        · have hne : n ≠ p.created := by
            have hlt := lt_of_mem_stock hn
            rw [h.created]
            omega
          rw [Function.update_of_ne hne]
          exact h.unused n hn
        · exact Function.update_self _ _ _
  | cons n bufs =>
    rw [List.length_cons] at hlen
    have hmax : max m (held.length + 1 - 1000) = m := by omega
    have hmem : n ∈ stock m := hperm.subset (List.mem_cons_self)
    have hget : p.getBuffer 128 true = some (n, { p with
        bufsets := Function.update p.bufsets 128 (some ⟨128, bufs⟩) }) := by
      simp only [SBufferPool.getBuffer, hsize, hbufs, Option.map_some]
    refine ⟨_, _, hget, h.unused n hmem, ?_⟩
    · rw [hmax]
      refine ⟨⟨bufs, ?_, List.perm_middle.trans hperm⟩, h.created, h.unused⟩
      show Function.update p.bufsets 128 _ 128 = _
      exact Function.update_self _ _ _

theorem Stocked.put (h : Stocked p (n :: held) m) :
    ∃ p', p.giveBack n = some p' ∧ Stocked p' held m := by
  obtain ⟨bufs, hbufs, hperm⟩ := h.list
  have hmem : n ∈ stock m := hperm.subset (List.mem_append_right _ List.mem_cons_self)
  have hsize : (p.buffers n).realSize = 128 := by
    rw [h.unused n hmem]
    rfl
  have hput : p.giveBack n = some { p with
      bufsets := Function.update p.bufsets 128 (some ⟨128, bufs ++ [n]⟩) } := by
    simp only [SBufferPool.giveBack, hsize, hbufs, Option.map_some]
  refine ⟨_, hput, ⟨bufs ++ [n], ?_, ?_⟩, h.created, h.unused⟩
  · show Function.update p.bufsets 128 _ 128 = _
    exact Function.update_self _ _ _
  · rw [List.append_assoc]
    exact hperm

end Pool

/-- The stream has no parser, and has kept the first four bytes that came. -/
structure Peer.Mute (p : Peer) : Prop where
  parser : p.stream.parser = none
  magic : p.stream.magicStringRecieveSize = min 4 p.recieveDataSize

section Streams

variable {origin : Origin} {s : SStream} {buf : ℕ} {data : List UInt8}

/-- With the fourth byte of the magic number, and from then on, a call fails. -/
theorem splitMessage_refuse (hparser : s.parser = none) (hle : s.magicStringRecieveSize ≤ 4)
    (hne : data ≠ []) (hfour : 4 ≤ s.magicStringRecieveSize + data.length) :
    ∃ t, s.splitMessage origin buf data [] = some (false, t, []) ∧ t.parser = none ∧
      t.magicStringRecieveSize = 4 := by
  have hlen := List.length_pos_of_ne_nil hne
  -- the four bytes were there before, or they are completed by this chunk
  rcases hle.eq_or_lt with heq | hlt
  · refine ⟨s, loop_inr ?_, hparser, heq⟩
    unfold SStream.splitTurn SStream.parseTurn
    dsimp only
    rw [if_pos (by omega), if_neg (by omega), hparser]
  · have hread : min (4 - s.magicStringRecieveSize) (data.length : ℤ) =
        4 - s.magicStringRecieveSize := min_eq_left (by omega)
    refine ⟨(SStream.readMagic data ⟨s, 0, data.length, []⟩).stream, loop_inr ?_, hparser, ?_⟩
    · unfold SStream.splitTurn SStream.parseTurn
      dsimp only [SStream.readMagic]
      rw [hread, if_pos (by omega), if_pos hlt, if_neg (by omega), hparser]
    · dsimp only [SStream.readMagic]
      rw [hread]
      ring

/-- A chunk is accepted as long as there are less than four bytes. -/
theorem Peer.Mute.split {p : Peer} (h : p.Mute) (origin : Origin) (buf : ℕ) (hne : data ≠ []) :
    ∃ t ok, p.stream.splitMessage origin buf data [] = some (ok, t, []) ∧
      (ok = true ↔ p.recieveDataSize + data.length < 4) ∧
      (⟨t, p.recieveDataSize + data.length⟩ : Peer).Mute := by
  have hlen := List.length_pos_of_ne_nil hne
  have hmagic := h.magic
  by_cases hless : p.recieveDataSize + data.length < 4
  · obtain ⟨magic, hwait⟩ := @SStream.splitMessage_wait origin p.stream buf data [] hne
      (by rw [hmagic]; omega)
    refine ⟨_, _, hwait, by simpa using hless, h.parser, ?_⟩
    dsimp only
    rw [hmagic]
    omega
  · obtain ⟨t, hrefuse, hparser, hfour⟩ := @splitMessage_refuse origin p.stream buf data h.parser
      (by rw [hmagic]; omega) hne (by rw [hmagic]; omega)
    refine ⟨_, _, hrefuse, by simpa using hless, hparser, ?_⟩
    dsimp only
    rw [hfour]
    omega

end Streams

namespace Reading

/-- What `on_read_some` has done when it comes back, or has ended the process. -/
structure Done (held : List ℕ) (m : ℕ) (results : List (RecvResult × Bool)) (s t : Reading) :
    Prop where
  mute : t.peer.Mute
  handled : t.handled = s.handled
  stocked : t.aborted = false → Stocked t.pool held (max m (held.length + results.length - 1000))
  aborted : t.aborted = true ↔ (∃ r ∈ results, r.1.Fatal) ∨ 4 ≤ t.peer.recieveDataSize

variable {origin : Origin} {s t u : Reading} {held : List ℕ} {m buf : ℕ}
  {results : List (RecvResult × Bool)}

theorem leave_of_aborted (h : s.aborted = true) : s.leave buf = some s := if_pos (.inl h)

theorem leave_eq (hmute : s.peer.Mute) (hopen : s.aborted = false) : s.leave buf =
    (s.pool.giveBack buf).map fun pool => { s with pool := pool } := by
  have hkeeps : ¬ s.keeps buf := by
    rintro ⟨p, hp, -⟩
    rw [hmute.parser] at hp
    cases hp
  rw [leave, hopen, if_neg (not_or.mpr ⟨Bool.false_ne_true, hkeeps⟩)]

/-- The call that is inside the others gives its buffer back, if it comes back. -/
theorem leave_of_eq (hmute : t.peer.Mute)
    (hstocked : t.aborted = false → Stocked t.pool (buf :: held) m) (h : t.leave buf = some u) :
    u.peer = t.peer ∧ u.handled = t.handled ∧ u.aborted = t.aborted ∧
      (u.aborted = false → Stocked u.pool held m) := by
  cases hopen : t.aborted with
  | true =>
    rw [leave_of_aborted hopen, Option.some.injEq] at h
    rw [← h, hopen]
    exact ⟨rfl, rfl, rfl, nofun⟩
  | false =>
    obtain ⟨p, hput, hp⟩ := (hstocked hopen).put
    rw [leave_eq hmute hopen, hput, Option.map_some, Option.some.injEq] at h
    rw [← h]
    exact ⟨rfl, rfl, hopen, fun _ => hp⟩

/-- The innermost call comes back, or does not. -/
theorem done_of_back {result : RecvResult} {v : Reading} (hmute : v.peer.Mute)
    (hhandled : v.handled = s.handled)
    (hstocked : v.aborted = false →
      Stocked v.pool (buf :: held) (max m (held.length + 1 - 1000)))
    (haborted : v.aborted = true ↔ result.Fatal ∨ 4 ≤ v.peer.recieveDataSize)
    (h : v.back results buf = some t) :
    Done held m ((result, true) :: results) s t := by
  unfold back at h
  split_ifs at h with hrest
  obtain ⟨hpeer, hsame, hopen, hput⟩ := leave_of_eq hmute hstocked h
  rw [hrest]
  refine ⟨hpeer ▸ hmute, hsame.trans hhandled, hput, ?_⟩
  rw [hpeer, hopen, haborted]
  simp only [List.mem_singleton, exists_eq_left]

/-- A call comes back after the one that it has made, or not at all. -/
theorem done_of_inner {result : RecvResult} {s' v : Reading}
    (hdone : Done (buf :: held) (max m (held.length + 1 - 1000)) results s' v)
    (hhandled : s'.handled = s.handled) (hnot : ¬ result.Fatal)
    (h : v.leave buf = some t) : Done held m ((result, true) :: results) s t := by
  obtain ⟨hpeer, hsame, hopen, hput⟩ := leave_of_eq hdone.mute hdone.stocked h
  have hdeep : max (max m (held.length + 1 - 1000)) ((buf :: held).length + results.length - 1000) =
      max m (held.length + ((result, true) :: results).length - 1000) := by
    simp only [List.length_cons]
    omega
  rw [hdeep] at hput
  refine ⟨hpeer ▸ hdone.mute, hsame.trans (hdone.handled.trans hhandled), hput, ?_⟩
  rw [hpeer, hopen, hdone.aborted]
  simp only [List.mem_cons, exists_eq_or_imp, hnot, false_or]

theorem onReadSome_done (hmute : s.peer.Mute) (hstocked : Stocked s.pool held m)
    (hopen : s.aborted = false) (hfour : s.peer.recieveDataSize < 4)
    (hmalloc : ∀ r ∈ results, r.2 = true) (h : onReadSome origin results s = some t) :
    Done held m results s t := by
  -- on the calls inside each other: each one holds one buffer more than the one around it
  induction results generalizing s t held m with
  | nil => cases h
  | cons head rest ih =>
    obtain ⟨result, malloc⟩ := head
    obtain rfl : malloc = true := hmalloc _ List.mem_cons_self
    obtain ⟨buf, pool, hget, hnew, htaken⟩ := hstocked.take
    have hrest : ∀ r ∈ rest, r.2 = true := fun r hr => hmalloc r (List.mem_cons_of_mem _ hr)
    rw [onReadSome, hget, Option.bind_some] at h
    cases result with
    | received data =>
      cases data with
      | nil =>
        refine done_of_back (s := s) (v := ({ s with pool := pool } : Reading).release)
          hmute rfl nofun ?_ h
        exact iff_of_true rfl (.inl rfl)
      | cons b bs =>
        dsimp only at h
        split_ifs at h with hfits
        obtain ⟨stream, ok, hsplit, hok, hmute'⟩ :=
          hmute.split origin buf (List.cons_ne_nil b bs)
        rw [hsplit, Option.bind_some] at h
        dsimp only at h
        -- `split_message` accepts the chunk and the function calls itself, or the connection is
        -- released
        split_ifs at h with hgood
        · obtain ⟨v, hv, hleave⟩ := Option.bind_eq_some_iff.mp h
          have hdone := ih (s := ⟨⟨stream, _⟩, pool, s.handled ++ [], s.aborted⟩) hmute' htaken hopen
            (hok.mp hgood) hrest hv
          exact done_of_inner hdone (List.append_nil _) (List.cons_ne_nil b bs) hleave
        · refine done_of_back (s := s)
            (v := (⟨⟨stream, _⟩, pool, s.handled, s.aborted⟩ : Reading).release) hmute' rfl nofun ?_ h
          exact iff_of_true rfl (.inr (Nat.not_lt.mp (mt hok.mpr hgood)))
    | failed errno =>
      dsimp only at h
      split_ifs at h with hagain hintr
      · refine done_of_back (s := s) (v := { s with pool := pool }) hmute rfl (fun _ => htaken) ?_ h
        rw [hopen]
        exact iff_of_false Bool.false_ne_true (not_or.mpr ⟨fun hf => hf.1 hagain, hfour.not_ge⟩)
      · obtain ⟨v, hv, hleave⟩ := Option.bind_eq_some_iff.mp h
        have hdone := ih (s := { s with pool := pool }) hmute htaken hopen hfour hrest hv
        exact done_of_inner hdone rfl (fun hf => hf.2 hintr) hleave
      · refine done_of_back (s := s) (v := ({ s with pool := pool } : Reading).release)
          hmute rfl nofun ?_ h
        exact iff_of_true rfl (.inl ⟨hagain, hintr⟩)

end Reading

namespace Reads

/-- The invariant of runs in which `malloc` succeeds. -/
structure Idle (s : Reads) : Prop where
  mute : ∀ c, (s.peers c).Mute
  handled : s.handled = []
  stocked : s.aborted = none → Stocked s.pool [] (s.deepest - 1000)
  aborted : ∀ c, s.aborted = some c ↔ s.ended c = true ∨ 4 ≤ (s.peers c).recieveDataSize

variable {origin : ℕ → Origin} {s t : Reads} {call : ReadCall}

theorem idle_start : start.Idle where
  mute := fun _ => ⟨rfl, rfl⟩
  handled := rfl
  stocked := fun _ => stocked_new
  aborted := by
    intro c
    simp [start]

theorem idle_step (h : s.Idle) (hc : s.Supplied call) (hstep : s.step origin call = some t) :
    t.Idle := by
  unfold step at hstep
  split_ifs at hstep with hopen
  rw [Option.not_isSome_iff_eq_none] at hopen
  have hless : ∀ c, s.ended c = false ∧ (s.peers c).recieveDataSize < 4 := by
    intro c
    have hnot := mt (h.aborted c).mpr (by rw [hopen]; nofun)
    exact ⟨Bool.eq_false_iff.mpr (not_or.mp hnot).1, Nat.not_le.mp (not_or.mp hnot).2⟩
  obtain ⟨r, hr, rfl⟩ := Option.map_eq_some_iff.mp hstep
  have hdone := Reading.onReadSome_done (h.mute call.conn) (h.stocked hopen) rfl
    (hless call.conn).2 hc hr
  refine ⟨?_, hdone.handled.trans h.handled, ?_, ?_⟩
  · intro c
    show (Function.update s.peers call.conn r.peer c).Mute
    by_cases heq : c = call.conn
    · rw [heq, Function.update_self]
      exact hdone.mute
    · rw [Function.update_of_ne heq]
      exact h.mute c
  · intro hback
    have hdeep : max (s.deepest - 1000) (([] : List ℕ).length + call.results.length - 1000) =
        max s.deepest call.results.length - 1000 := by
      simp only [List.length_nil]
      omega
    rw [← hdeep]
    refine hdone.stocked (Bool.eq_false_iff.mpr fun habort => ?_)
    rw [if_pos habort] at hback
    cases hback
  · intro c
    show (if r.aborted then some call.conn else none) = some c ↔
      Function.update s.ended call.conn _ c = true ∨
        4 ≤ (Function.update s.peers call.conn r.peer c).recieveDataSize
    by_cases heq : c = call.conn
    · rw [heq, Function.update_self, Function.update_self, (hless call.conn).1, Bool.false_or]
      simp only [List.any_eq_true, decide_eq_true_eq]
      rw [← hdone.aborted]
      split_ifs with habort
      · exact iff_of_true rfl habort
      · exact iff_of_false nofun habort
    · rw [Function.update_of_ne heq, Function.update_of_ne heq]
      refine iff_of_false ?_ ?_
      · split_ifs
        · exact fun hsome => heq (Option.some.inj hsome).symm
        · nofun
      · rw [(hless c).1]
        exact not_or.mpr ⟨Bool.false_ne_true, (hless c).2.not_ge⟩

/-- The server never calls the callback of a request: its process ends with the first connection
that comes to its end, fails, or has sent the fourth byte of its magic number. Until then no buffer
is lost, and as many are made as calls of `on_read_some` were ever inside each other, if these are
more than 1000. -/
theorem never_serves (origin : ℕ → Origin) (s : Reads)
    (h : Reachable (step origin) Supplied start s) :
    s.handled = [] ∧
    (∀ c, s.aborted = some c ↔ s.ended c = true ∨ 4 ≤ (s.peers c).recieveDataSize) ∧
    (s.aborted = none →
      ∃ bufs, s.pool.bufsets 128 = some ⟨128, bufs⟩ ∧ bufs.Perm (stock (s.deepest - 1000))) := by
  have hidle : s.Idle := by
    apply h.invariant Idle idle_start
    intro s call t hs hc hstep
    exact idle_step hs hc hstep
  refine ⟨hidle.handled, hidle.aborted, fun hopen => ?_⟩
  obtain ⟨bufs, hbufs, hperm⟩ := (hidle.stocked hopen).list
  exact ⟨bufs, hbufs, (List.append_nil bufs) ▸ hperm⟩

/-- Two connections; the fourth byte of the first one ends the process, after three and an
interrupted `recv`. -/
def twoCalls : List ReadCall :=
  [⟨0, [(.received [1, 0, 0], true), (.failed EINTR, true), (.failed EAGAIN, true)]⟩,
    ⟨1, [(.received [1], true), (.failed EAGAIN, true)]⟩, ⟨0, [(.received [0, 12], true)]⟩]

theorem never_serves_two : ∃ s t,
    runIf (step fun _ => ⟨"", 0, fun _ => 0⟩) Supplied start (twoCalls.take 2) = some s ∧
    s.aborted = none ∧
    (∃ bufs, s.pool.bufsets 128 = some ⟨128, bufs⟩ ∧ bufs.Perm (stock (s.deepest - 1000))) ∧
    runIf (step fun _ => ⟨"", 0, fun _ => 0⟩) Supplied start twoCalls = some t ∧
    t.handled = [] ∧ t.aborted = some 0 := by
  have hbefore : (runIf (step fun _ => ⟨"", 0, fun _ => 0⟩) Supplied start (twoCalls.take 2)).map
      (fun s => s.aborted) = some none := by decide +kernel
  have hrun : (runIf (step fun _ => ⟨"", 0, fun _ => 0⟩) Supplied start twoCalls).map
      (fun s => (s.peers 0).recieveDataSize) = some 5 := by decide +kernel
  obtain ⟨s, hs, hopen⟩ := Option.map_eq_some_iff.mp hbefore
  obtain ⟨t, ht, hfive⟩ := Option.map_eq_some_iff.mp hrun
  obtain ⟨-, -, hpool⟩ := never_serves _ s (.of_runIf .init hs)
  obtain ⟨hhandled, haborted, -⟩ := never_serves _ t (.of_runIf .init ht)
  exact ⟨s, t, hs, hopen, hpool hopen, ht, hhandled, (haborted 0).mpr (.inr (by omega))⟩

end Reads

end MgRaffle.TcpServer
