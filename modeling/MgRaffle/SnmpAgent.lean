import MgRaffle.Library.Channel
import MgRaffle.Library.Stepping

namespace MgRaffle.SnmpAgent
open Stepping

/-- `gosnmp.SnmpPacket` as it goes through a channel: only `Data` is ever set. -/
structure SnmpPacket (A : Type) where
  data : List UInt8
  addr : Option A
  deriving Repr, DecidableEq

inductive PDUType
  | getRequest
  | getResponse
  | other
  deriving Repr, DecidableEq

/-- The fields of a message that `handleClient` reads, and of one that it sends. -/
structure Message (V : Type) where
  pduType : PDUType
  requestID : ℕ
  vars : V

inductive Handler (A : Type)
  /-- `for packet := range clientChan` -/
  | receiving
  | handling (packet : SnmpPacket A)
  | ended

/-- A channel that was made, with the goroutine that it was made for; `taken` is what that one has
received so far. -/
structure Client (A : Type) where
  addr : A
  chan : Channel (SnmpPacket A)
  handler : Handler A
  taken : List (SnmpPacket A)

/-- Where `ListenAndServe` stands. -/
inductive Listener (A : Type)
  | reading
  /-- in front of the mutex, with a packet -/
  | looking (addr : A) (packet : SnmpPacket A)
  /-- `clientChan <- &gosnmp.SnmpPacket{Data: packet}` -/
  | sending (client : ℕ) (packet : SnmpPacket A)

/-- The agent, with the channels made so far, what was received, and what was written to whom. -/
structure SNMPAgent (A V : Type) where
  clientRequests : A → Option ℕ
  clients : ℕ → Option (Client A)
  made : ℕ
  listener : Listener A
  received : List (A × SnmpPacket A)
  written : List (Option A × Message V)

/-- What the goroutines do, with what the calls answer that they make: `Get` and `MarshalBER` fail
or not. -/
inductive Event (A V : Type)
  | read (addr : A) (bytes : List UInt8)
  | readError
  | lookUp
  | send
  | take (client : ℕ)
  | handle (client : ℕ) (get : Option V) (marshal : Bool)
  | exit (client : ℕ)
  deriving Repr, DecidableEq

namespace SNMPAgent

variable {A V : Type}

def new : SNMPAgent A V := ⟨fun _ => none, fun _ => none, 0, .reading, [], []⟩

/-- What is written for a packet; `unmarshal` is `UnmarshalBER`. -/
def answer (unmarshal : List UInt8 → Option (Message V)) (packet : SnmpPacket A) (get : Option V)
    (marshal : Bool) : Option (Option A × Message V) := do
  let snmpPacket ← unmarshal packet.data
  if snmpPacket.pduType = .getRequest then
    let response ← get
    if marshal then some (packet.addr, ⟨.getResponse, snmpPacket.requestID, response⟩) else none
  else none

variable [DecidableEq A]

def setClient (s : SNMPAgent A V) (i : ℕ) (c : Client A) : SNMPAgent A V :=
  { s with clients := Function.update s.clients i (some c) }

/-- The entry of a client that the map has, or a new one with a goroutine of its own. -/
def lookUp (s : SNMPAgent A V) (addr : A) (packet : SnmpPacket A) : SNMPAgent A V :=
  match s.clientRequests addr with
  | some i => { s with listener := .sending i packet }
  | none =>
    { s with
      clientRequests := Function.update s.clientRequests addr (some s.made)
      clients := Function.update s.clients s.made (some ⟨addr, .make 10, .receiving, []⟩)
      made := s.made + 1
      listener := .sending s.made packet }

/-- `none` where the goroutine is not at that point, or blocks. -/
def step (unmarshal : List UInt8 → Option (Message V)) (s : SNMPAgent A V) :
    Event A V → Option (SNMPAgent A V)
  | .read addr bytes =>
    match s.listener with
    | .reading =>
      -- a datagram is cut off behind the buffer
      let packet : SnmpPacket A := ⟨bytes.take 1024, none⟩
      some { s with listener := .looking addr packet, received := s.received ++ [(addr, packet)] }
    | _ => none
  | .readError =>
    match s.listener with
    | .reading => some s
    | _ => none
  | .lookUp =>
    match s.listener with
    | .looking addr packet => some (s.lookUp addr packet)
    | _ => none
  | .send =>
    match s.listener with
    | .sending i packet => do
      let c ← s.clients i
      let chan ← c.chan.send packet
      some { s.setClient i { c with chan := chan } with listener := .reading }
    | _ => none
  | .take i => do
    let c ← s.clients i
    match c.handler with
    | .receiving =>
      let (packet, chan) ← c.chan.receive
      some (s.setClient i
        { c with chan := chan, handler := .handling packet, taken := c.taken ++ [packet] })
    | _ => none
  | .handle i get marshal => do
    let c ← s.clients i
    match c.handler with
    | .handling packet =>
      some { s.setClient i { c with handler := .receiving } with
        written := s.written ++ (answer unmarshal packet get marshal).toList }
    | _ => none
  | .exit i => do
    let c ← s.clients i
    match c.handler with
    | .receiving =>
      if c.chan.closed ∧ c.chan.items = [] then
        some { s.setClient i { c with handler := .ended } with
          clientRequests := Function.update s.clientRequests c.addr none }
      else none
    | _ => none

/-- Everything that a step can do. -/
inductive Stepped (unmarshal : List UInt8 → Option (Message V)) (s : SNMPAgent A V) :
    Event A V → SNMPAgent A V → Prop
  | read {addr : A} {bytes : List UInt8} (hl : s.listener = .reading) :
      Stepped unmarshal s (.read addr bytes)
        { s with
          listener := .looking addr ⟨bytes.take 1024, none⟩
          received := s.received ++ [(addr, ⟨bytes.take 1024, none⟩)] }
  | readError : Stepped unmarshal s .readError s
  | found {addr : A} {packet : SnmpPacket A} {i : ℕ} (hl : s.listener = .looking addr packet)
      (hi : s.clientRequests addr = some i) :
      Stepped unmarshal s .lookUp { s with listener := .sending i packet }
  | added {addr : A} {packet : SnmpPacket A} (hl : s.listener = .looking addr packet)
      (hi : s.clientRequests addr = none) :
      Stepped unmarshal s .lookUp
        { s with
          clientRequests := Function.update s.clientRequests addr (some s.made)
          clients := Function.update s.clients s.made (some ⟨addr, .make 10, .receiving, []⟩)
          made := s.made + 1
          listener := .sending s.made packet }
  | send {packet : SnmpPacket A} {i : ℕ} {c : Client A} {chan : Channel (SnmpPacket A)}
      (hl : s.listener = .sending i packet) (hc : s.clients i = some c)
      (hchan : c.chan.send packet = some chan) :
      Stepped unmarshal s .send { s.setClient i { c with chan := chan } with listener := .reading }
  | take {packet : SnmpPacket A} {i : ℕ} {c : Client A} {chan : Channel (SnmpPacket A)}
      (hc : s.clients i = some c) (hchan : c.chan.receive = some (packet, chan)) :
      Stepped unmarshal s (.take i) (s.setClient i
        { c with chan := chan, handler := .handling packet, taken := c.taken ++ [packet] })
  | handle {packet : SnmpPacket A} {i : ℕ} {c : Client A} {get : Option V} {marshal : Bool}
      (hc : s.clients i = some c) (hh : c.handler = .handling packet) :
      Stepped unmarshal s (.handle i get marshal)
        { s.setClient i { c with handler := .receiving } with
          written := s.written ++ (answer unmarshal packet get marshal).toList }
  | exit {i : ℕ} {c : Client A} (hc : s.clients i = some c) (hclosed : c.chan.closed = true)
      (t : SNMPAgent A V) : Stepped unmarshal s (.exit i) t

/-- What of the packets of an address is still in the listener's hand. -/
def inHand (s : SNMPAgent A V) (a : A) : List (SnmpPacket A) :=
  match s.listener with
  | .reading => []
  | .looking addr packet => if addr = a then [packet] else []
  | .sending i packet => if s.clientRequests a = some i then [packet] else []

/-- What a client's goroutine has received, and what waits for it. -/
def delivered (s : SNMPAgent A V) (a : A) : List (SnmpPacket A) × List (SnmpPacket A) :=
  match s.clientRequests a with
  | none => ([], [])
  | some i => match s.clients i with
    | none => ([], [])
    | some c => (c.taken, c.chan.items)

def receivedFrom (s : SNMPAgent A V) (a : A) : List (SnmpPacket A) :=
  (s.received.filter fun r => r.1 = a).map Prod.snd

/-- The map has for every client that there is the one channel that its goroutine receives from;
none is closed, and none of these goroutines comes to its end. Of every address the packets are
received by its goroutine as they came in. -/
structure Routed (s : SNMPAgent A V) : Prop where
  mapped : ∀ a i, s.clientRequests a = some i → ∃ c, s.clients i = some c ∧ c.addr = a
  known : ∀ i c, s.clients i = some c → i < s.made ∧ s.clientRequests c.addr = some i
  opened : ∀ i c, s.clients i = some c → c.chan.closed = false ∧ c.chan.capacity = 10
  handling : ∀ i c p, s.clients i = some c → c.handler = .handling p → p ∈ c.taken
  running : ∀ i c, s.clients i = some c → c.handler ≠ .ended
  sending : ∀ i p, s.listener = .sending i p → ∃ c, s.clients i = some c
  fifo : ∀ a, s.receivedFrom a = (s.delivered a).1 ++ (s.delivered a).2 ++ s.inHand a
  unaddressed : ∀ r ∈ s.received, r.2.addr = none
  written : ∀ w ∈ s.written, w.1 = none

section Routing

variable {unmarshal : List UInt8 → Option (Message V)} {s t : SNMPAgent A V} {e : Event A V}

theorem stepped_of_step (h : s.step unmarshal e = some t) : s.Stepped unmarshal e t := by
  cases e with
  | read addr bytes =>
    simp only [step] at h
    split at h <;> cases h
    exact .read ‹_›
  | readError =>
    simp only [step] at h
    split at h <;> cases h
    exact .readError
  | lookUp =>
    simp only [step] at h
    split at h <;> cases h
    unfold lookUp
    split
    · exact .found ‹_› ‹_›
    · exact .added ‹_› ‹_›
  | send =>
    simp only [step] at h
    split at h
    · obtain ⟨c, hc, h⟩ := Option.bind_eq_some_iff.mp h
      obtain ⟨chan, hchan, h⟩ := Option.bind_eq_some_iff.mp h
      cases h
      exact .send ‹_› hc hchan
    · cases h
  | take i =>
    obtain ⟨c, hc, h⟩ := Option.bind_eq_some_iff.mp h
    split at h
    · obtain ⟨⟨packet, chan⟩, hchan, h⟩ := Option.bind_eq_some_iff.mp h
      cases h
      exact .take hc hchan
    · cases h
  | handle i get marshal =>
    obtain ⟨c, hc, h⟩ := Option.bind_eq_some_iff.mp h
    split at h <;> cases h
    exact .handle hc ‹_›
  | exit i =>
    obtain ⟨c, hc, h⟩ := Option.bind_eq_some_iff.mp h
    split at h
    · split_ifs at h with hclosed
      exact .exit hc hclosed.1 t
    · cases h

theorem routed_new : (new : SNMPAgent A V).Routed where
  mapped _ _ h := by cases h
  known _ _ h := by cases h
  opened _ _ h := by cases h
  handling _ _ _ h := by cases h
  running _ _ h := by cases h
  sending _ _ h := by cases h
  fifo _ := rfl
  unaddressed _ h := by cases h
  written _ h := by cases h

omit [DecidableEq A] in
theorem update_cases {f : ℕ → Option (Client A)} {i j : ℕ} {d e : Client A}
    (h : Function.update f i (some d) j = some e) : j = i ∧ e = d ∨ j ≠ i ∧ f j = some e := by
  by_cases hj : j = i
  · subst hj
    rw [Function.update_self, Option.some.injEq] at h
    exact Or.inl ⟨rfl, h.symm⟩
  · rw [Function.update_of_ne hj] at h
    exact Or.inr ⟨hj, h⟩

omit [DecidableEq A] in
theorem delivered_of {i : ℕ} {c : Client A} {a : A} (ha : s.clientRequests a = some i)
    (hc : s.clients i = some c) : s.delivered a = (c.taken, c.chan.items) := by
  simp only [delivered, ha, hc]

theorem filter_concat (rs : List (A × SnmpPacket A)) (b : A) (p : SnmpPacket A) (a : A) :
    ((rs ++ [(b, p)]).filter fun r => r.1 = a).map Prod.snd =
      (rs.filter fun r => r.1 = a).map Prod.snd ++ if b = a then [p] else [] := by
  rw [List.filter_append, List.map_append]
  by_cases h : b = a <;> simp [h]

theorem Routed.addr_eq (h : s.Routed) {a b : A} {i : ℕ} (ha : s.clientRequests a = some i)
    (hb : s.clientRequests b = some i) : a = b := by
  obtain ⟨c, hc, rfl⟩ := h.mapped a i ha
  obtain ⟨d, hd, rfl⟩ := h.mapped b i hb
  rw [hc, Option.some.injEq] at hd
  rw [hd]

theorem Routed.addr_of_taken (h : s.Routed) {i : ℕ} {c : Client A} {packet : SnmpPacket A}
    (hc : s.clients i = some c) (hp : packet ∈ c.taken) : packet.addr = none := by
  -- what a goroutine has taken came from the listener, which leaves `Addr` empty
  have hfifo := h.fifo c.addr
  rw [delivered_of (h.known i c hc).2 hc] at hfifo
  have hmem : packet ∈ s.receivedFrom c.addr := by
    rw [hfifo]
    simp [hp]
  obtain ⟨r, hr, rfl⟩ := List.mem_map.mp hmem
  exact h.unaddressed r (List.mem_filter.mp hr).1

omit [DecidableEq A] in
theorem answer_addr {packet : SnmpPacket A} {get : Option V} {marshal : Bool}
    {x : Option A × Message V} (h : x ∈ answer unmarshal packet get marshal) :
    x.1 = packet.addr := by
  obtain ⟨m, -, h⟩ := Option.bind_eq_some_iff.mp h
  split_ifs at h <;> obtain ⟨v, -, h⟩ := Option.bind_eq_some_iff.mp h <;> cases h
  rfl

/-- A goroutine that goes on, or the listener that sends to its channel. -/
theorem Routed.setClient (h : s.Routed) {i : ℕ} {c d : Client A} (hc : s.clients i = some c)
    (haddr : d.addr = c.addr) (hopened : d.chan.closed = false ∧ d.chan.capacity = 10)
    (hhandling : ∀ p, d.handler = .handling p → p ∈ d.taken) (hrunning : d.handler ≠ .ended)
    (l : Listener A) (hl : l = s.listener ∨ l = .reading) (w : List (Option A × Message V))
    (hw : ∀ x ∈ w, x.1 = none)
    (hfifo : d.taken ++ d.chan.items ++ ({ s with listener := l }).inHand c.addr =
      c.taken ++ c.chan.items ++ s.inHand c.addr)
    (hothers : ∀ a, a ≠ c.addr → ({ s with listener := l }).inHand a = s.inHand a) :
    Routed { s.setClient i d with listener := l, written := w } := by
  have hci := (h.known i c hc).2
  refine ⟨?_, ?_, ?_, ?_, ?_, ?_, ?_, h.unaddressed, hw⟩
  · intro a j ha
    obtain ⟨e, he, rfl⟩ := h.mapped a j ha
    by_cases hj : j = i
    · subst hj
      rw [hc, Option.some.injEq] at he
      exact ⟨d, Function.update_self .., by rw [haddr, he]⟩
    · exact ⟨e, by rw [← he]; exact Function.update_of_ne hj .., rfl⟩
  · intro j e he
    obtain ⟨rfl, rfl⟩ | ⟨-, he⟩ := update_cases he
    · exact ⟨(h.known j c hc).1, by rw [haddr]; exact hci⟩
    · exact h.known j e he
  · intro j e he
    obtain ⟨rfl, rfl⟩ | ⟨-, he⟩ := update_cases he
    · exact hopened
    · exact h.opened j e he
  · intro j e p he hp
    obtain ⟨rfl, rfl⟩ | ⟨-, he⟩ := update_cases he
    · exact hhandling p hp
    · exact h.handling j e p he hp
  · intro j e he
    obtain ⟨rfl, rfl⟩ | ⟨-, he⟩ := update_cases he
    · exact hrunning
    · exact h.running j e he
  · intro j p hj
    have hj' : s.listener = .sending j p := by
      rcases hl with rfl | rfl
      · exact hj
      · cases hj
    obtain ⟨e, he⟩ := h.sending j p hj'
    by_cases hji : j = i
    · subst hji
      exact ⟨d, Function.update_self ..⟩
    · exact ⟨e, by rw [← he]; exact Function.update_of_ne hji ..⟩
  · -- the address of the client by hypothesis, any other one as before
    intro a
    have hfifo' := h.fifo a
    by_cases ha : a = c.addr
    · subst ha
      rw [delivered_of hci hc] at hfifo'
      have hd : ({ s.setClient i d with listener := l, written := w } : SNMPAgent A V).delivered
          c.addr = (d.taken, d.chan.items) := delivered_of hci (Function.update_self ..)
      rw [hd]
      exact hfifo'.trans hfifo.symm
    · have hsame : ({ s.setClient i d with listener := l, written := w } : SNMPAgent A V).delivered
          a = s.delivered a := by
        cases hr : s.clientRequests a with
        | none => simp only [delivered, SNMPAgent.setClient, hr]
        | some j =>
          have hji : j ≠ i := by
            rintro rfl
            exact ha (h.addr_eq hr hci)
          simp only [delivered, SNMPAgent.setClient, hr, Function.update_of_ne hji]
      rw [hsame]
      exact hfifo'.trans (congrArg _ (hothers a ha).symm)

/-- A new client: its channel and its goroutine are its own. -/
theorem Routed.added (h : s.Routed) {addr : A} {packet : SnmpPacket A}
    (hl : s.listener = .looking addr packet) (hi : s.clientRequests addr = none) :
    Routed { s with
      clientRequests := Function.update s.clientRequests addr (some s.made)
      clients := Function.update s.clients s.made (some ⟨addr, .make 10, .receiving, []⟩)
      made := s.made + 1
      listener := .sending s.made packet } := by
  have hold : ∀ a j, s.clientRequests a = some j → a ≠ addr ∧ j ≠ s.made := by
    intro a j ha
    obtain ⟨c, hc, -⟩ := h.mapped a j ha
    refine ⟨?_, (h.known j c hc).1.ne⟩
    rintro rfl
    rw [hi] at ha
    cases ha
  refine ⟨?_, ?_, ?_, ?_, ?_, ?_, ?_, h.unaddressed, h.written⟩
  · intro a j ha
    dsimp only at ha ⊢
    by_cases haddr : a = addr
    · subst haddr
      rw [Function.update_self, Option.some.injEq] at ha
      subst ha
      exact ⟨_, Function.update_self .., rfl⟩
    · rw [Function.update_of_ne haddr] at ha
      obtain ⟨c, hc, hca⟩ := h.mapped a j ha
      exact ⟨c, by rw [← hc]; exact Function.update_of_ne (hold a j ha).2 .., hca⟩
  · intro j e he
    obtain ⟨rfl, rfl⟩ | ⟨-, he⟩ := update_cases he
    · exact ⟨Nat.lt_succ_self _, Function.update_self ..⟩
    · obtain ⟨hlt, hmap⟩ := h.known j e he
      refine ⟨Nat.lt_succ_of_lt hlt, ?_⟩
      rw [← hmap]
      exact Function.update_of_ne (hold e.addr j hmap).1 ..
  · intro j e he
    obtain ⟨rfl, rfl⟩ | ⟨-, he⟩ := update_cases he
    · exact ⟨rfl, rfl⟩
    · exact h.opened j e he
  · intro j e p he hp
    obtain ⟨rfl, rfl⟩ | ⟨-, he⟩ := update_cases he
    · cases hp
    · exact h.handling j e p he hp
  · intro j e he
    obtain ⟨rfl, rfl⟩ | ⟨-, he⟩ := update_cases he
    · exact fun heq => by cases heq
    · exact h.running j e he
  · rintro j p ⟨⟩
    exact ⟨_, Function.update_self ..⟩
  · intro a
    have hfifo := h.fifo a
    by_cases ha : a = addr
    · subst ha
      have hhand : s.inHand a = [packet] := by simp only [inHand, hl, if_true]
      have hnone : s.delivered a = ([], []) := by simp only [delivered, hi]
      rw [hhand, hnone] at hfifo
      simp only [delivered, inHand, Function.update_self, if_true, Channel.make]
      exact hfifo
    · have hhand : s.inHand a = [] := by simp only [inHand, hl, if_neg (Ne.symm ha)]
      have hne : s.clientRequests a ≠ some s.made := fun heq => (hold a s.made heq).2 rfl
      rw [hhand] at hfifo
      simp only [inHand, Function.update_of_ne ha, if_neg hne]
      refine hfifo.trans ?_
      congr 1
      cases hr : s.clientRequests a with
      | none => simp only [delivered, Function.update_of_ne ha, hr]
      | some j =>
        simp only [delivered, Function.update_of_ne ha, hr, Function.update_of_ne (hold a j hr).2]

theorem Routed.step (h : s.Routed) (hstep : s.Stepped unmarshal e t) : t.Routed := by
  cases hstep with
  | @read addr bytes hl =>
    -- the packet goes from the socket into the hand of the listener
    refine ⟨h.mapped, h.known, h.opened, h.handling, h.running, fun i p heq => (by cases heq), ?_, ?_,
      h.written⟩
    · intro a
      have hfifo := h.fifo a
      have hhand : s.inHand a = [] := by simp only [inHand, hl]
      rw [hhand, List.append_nil] at hfifo
      have hnew := filter_concat s.received addr ⟨bytes.take 1024, none⟩ a
      rw [receivedFrom] at hfifo
      rw [hfifo] at hnew
      exact hnew
    · intro r hr
      rcases List.mem_append.mp hr with hr | hr
      · exact h.unaddressed r hr
      · rw [List.mem_singleton.mp hr]
  | readError => exact h
  | @found addr packet i hl hi =>
    refine ⟨h.mapped, h.known, h.opened, h.handling, h.running, ?_, ?_, h.unaddressed, h.written⟩
    · rintro j p ⟨⟩
      obtain ⟨c, hc, -⟩ := h.mapped addr i hi
      exact ⟨c, hc⟩
    · intro a
      have hhand : s.inHand a = if s.clientRequests a = some i then [packet] else [] := by
        simp only [inHand, hl]
        by_cases ha : addr = a
        · rw [if_pos ha, if_pos (ha ▸ hi)]
        · rw [if_neg ha, if_neg fun heq => ha (h.addr_eq hi heq)]
      exact (h.fifo a).trans (congrArg _ hhand)
  | @added addr packet hl hi => exact h.added hl hi
  | @send packet i c chan hl hc hchan =>
    obtain ⟨hitems, hcap, hclosed⟩ := Channel.send_eq_some hchan
    have hci := (h.known i c hc).2
    have hhand : s.inHand c.addr = [packet] := by simp only [inHand, hl, hci, if_true]
    refine h.setClient (d := { c with chan := chan }) hc rfl
      ⟨hclosed, hcap.trans (h.opened i c hc).2⟩ (h.handling i c · hc) (h.running i c hc) .reading
      (Or.inr rfl) s.written h.written ?_ ?_
    · rw [hhand]
      simp only [hitems, inHand, List.append_nil, List.append_assoc]
    · intro a ha
      have hai : s.clientRequests a ≠ some i := fun heq => ha (h.addr_eq heq hci)
      simp only [inHand, hl, if_neg hai]
  | @take packet i c chan hc hchan =>
    obtain ⟨hitems, hcap, hclosed⟩ := Channel.receive_eq_some hchan
    refine h.setClient (d := { c with
      chan := chan, handler := .handling packet, taken := c.taken ++ [packet] }) hc rfl
      ⟨hclosed.trans (h.opened i c hc).1, hcap.trans (h.opened i c hc).2⟩ ?_
      (fun heq => by cases heq) s.listener (Or.inl rfl) s.written h.written ?_ (fun _ _ => rfl)
    · rintro p ⟨⟩
      exact List.mem_append_right _ (List.mem_singleton.mpr rfl)
    · simp only [hitems, List.append_assoc, List.singleton_append]
  | @handle packet i c get marshal hc hh =>
    refine h.setClient (d := { c with handler := .receiving }) hc rfl (h.opened i c hc)
      (fun p hp => by cases hp) (fun heq => by cases heq) s.listener (Or.inl rfl) _ ?_ rfl
      (fun _ _ => rfl)
    have haddr : packet.addr = none := h.addr_of_taken hc (h.handling i c packet hc hh)
    intro x hx
    rcases List.mem_append.mp hx with hx | hx
    · exact h.written x hx
    · rw [Option.mem_toList] at hx
      exact (answer_addr hx).trans haddr
  | @exit i c hc hclosed t =>
    -- nobody closes a channel, so that `range` does not come to its end
    rw [(h.opened i c hc).1] at hclosed
    cases hclosed

end Routing

section Runs

variable {unmarshal : List UInt8 → Option (Message V)} {s t : SNMPAgent A V}

theorem routed_of_reachable (h : Reachable (step unmarshal) (fun _ _ => True) new s) : s.Routed :=
  h.invariant Routed routed_new fun _ _ _ hs _ hstep => hs.step (stepped_of_step hstep)

/-- Of every address the packets that came in are those that its goroutine has taken, those that
wait in its channel, at most ten, and the one in the listener's hand, in that order. No goroutine
ends, and what is written is addressed to nobody. -/
theorem packets_routed (unmarshal : List UInt8 → Option (Message V)) (s : SNMPAgent A V)
    (h : Reachable (step unmarshal) (fun _ _ => True) new s) :
    (∀ a, s.receivedFrom a = (s.delivered a).1 ++ (s.delivered a).2 ++ s.inHand a ∧
      (s.delivered a).2.length ≤ 10) ∧
    (∀ i c, s.clients i = some c → s.clientRequests c.addr = some i ∧ c.handler ≠ .ended) ∧
    ∀ w ∈ s.written, w.1 = none := by
  have hrouted := routed_of_reachable h
  refine ⟨fun a => ⟨hrouted.fifo a, ?_⟩, fun i c hc => ⟨(hrouted.known i c hc).2, hrouted.running i c hc⟩,
    hrouted.written⟩
  cases hr : s.clientRequests a with
  | none =>
    simp only [delivered, hr]
    exact Nat.zero_le _
  | some i =>
    obtain ⟨c, hc, -⟩ := hrouted.mapped a i hr
    rw [delivered_of hr hc, ← (hrouted.opened i c hc).2]
    exact c.chan.bounded

/-- The listener stands in front of a full channel. -/
structure Blocked (i : ℕ) (packet : SnmpPacket A) (received : List (A × SnmpPacket A))
    (s : SNMPAgent A V) : Prop where
  routed : s.Routed
  listener : s.listener = .sending i packet
  full : ∃ c, s.clients i = some c ∧ c.chan.items.length = 10
  received : s.received = received

theorem Blocked.step {i : ℕ} {packet : SnmpPacket A} {received : List (A × SnmpPacket A)}
    {e : Event A V} (h : Blocked i packet received s) (he : e ≠ .take i)
    (hstep : s.Stepped unmarshal e t) : Blocked i packet received t := by
  have hrouted := h.routed.step hstep
  obtain ⟨d, hd, hfull⟩ := h.full
  have hl := h.listener
  cases hstep with
  | read hl' =>
    rw [hl] at hl'
    cases hl'
  | readError => exact h
  | found hl' =>
    rw [hl] at hl'
    cases hl'
  | added hl' =>
    rw [hl] at hl'
    cases hl'
  | @send packet' j c chan hl' hc hchan =>
    -- the channel is the full one
    rw [hl] at hl'
    cases hl'
    rw [hd, Option.some.injEq] at hc
    subst hc
    obtain ⟨hclosed, hcap⟩ := h.routed.opened i d hd
    rw [(Channel.send_eq_none_iff hclosed).mpr (hfull.trans hcap.symm)] at hchan
    cases hchan
  | @take packet' j c chan hc hchan =>
    have hji : i ≠ j := fun heq => he (heq ▸ rfl)
    exact ⟨hrouted, hl, ⟨d, by rw [← hd]; exact Function.update_of_ne hji .., hfull⟩, h.received⟩
  | @handle packet' j c get marshal hc hh =>
    refine ⟨hrouted, hl, ?_, h.received⟩
    by_cases hji : i = j
    · subst hji
      rw [hd, Option.some.injEq] at hc
      subst hc
      exact ⟨_, Function.update_self .., hfull⟩
    · exact ⟨d, by rw [← hd]; exact Function.update_of_ne hji .., hfull⟩
  | @exit j c hc hclosed t =>
    rw [(h.routed.opened j c hc).1] at hclosed
    cases hclosed

/-- One client whose goroutine does not come to its next packet stops all the others: once its
channel is full and the listener has another packet for it, nothing is received from anyone until
that goroutine takes one. -/
theorem full_channel_blocks (unmarshal : List UInt8 → Option (Message V)) (s t : SNMPAgent A V)
    (i : ℕ) (packet : SnmpPacket A) (c : Client A)
    (hs : Reachable (step unmarshal) (fun _ _ => True) new s) (hl : s.listener = .sending i packet)
    (hc : s.clients i = some c) (hfull : c.chan.items.length = 10)
    (ht : Reachable (step unmarshal) (fun _ e => e ≠ .take i) s t) :
    t.received = s.received ∧ t.listener = .sending i packet := by
  have hblocked : Blocked i packet s.received t :=
    ht.invariant (Blocked i packet s.received) ⟨routed_of_reachable hs, hl, ⟨c, hc, hfull⟩, rfl⟩
      fun _ _ _ hs he hstep => hs.step he (stepped_of_step hstep)
  exact ⟨hblocked.received, hblocked.listener⟩

/-- `n` packets of a client, each put into its channel. -/
def flood (n : ℕ) : List (Event Bool Unit) :=
  (List.replicate n [.read true [7], .lookUp, .send]).flatten

/-- Another client is served before, and eleven packets of the first one are too many. -/
def floodEvents : List (Event Bool Unit) :=
  [.read false [1], .lookUp, .send] ++ flood 10 ++ [.read true [8], .lookUp]

/-- The packets of the first client are requests. -/
def getRequests (bs : List UInt8) : Option (Message Unit) :=
  if bs = [7] then some ⟨.getRequest, 5, ()⟩ else none

/-- Its goroutine takes a packet, which lets the listener go on, and answers it. -/
theorem packets_routed_flood : ∃ s : SNMPAgent Bool Unit,
    runIf (step getRequests) (fun _ _ => True) new
      (floodEvents ++ [.take 1, .send, .handle 1 (some ()) true]) = some s ∧
    s.receivedFrom true = List.replicate 10 ⟨[7], none⟩ ++ [⟨[8], none⟩] ∧
    s.delivered true = ([⟨[7], none⟩], List.replicate 9 ⟨[7], none⟩ ++ [⟨[8], none⟩]) ∧
    s.written = [(none, ⟨.getResponse, 5, ()⟩)] ∧
    (s.delivered true).2.length ≤ 10 ∧ ∀ w ∈ s.written, w.1 = none := by
  obtain ⟨s, hs, hfrom, hdelivered, hwritten⟩ : ∃ s : SNMPAgent Bool Unit,
      runIf (step getRequests) (fun _ _ => True) new
        (floodEvents ++ [.take 1, .send, .handle 1 (some ()) true]) = some s ∧
      s.receivedFrom true = List.replicate 10 ⟨[7], none⟩ ++ [⟨[8], none⟩] ∧
      s.delivered true = ([⟨[7], none⟩], List.replicate 9 ⟨[7], none⟩ ++ [⟨[8], none⟩]) ∧
      s.written = [(none, ⟨.getResponse, 5, ()⟩)] := ⟨_, rfl, rfl, rfl, rfl⟩
  obtain ⟨hrouted, -, haddressed⟩ := packets_routed _ s (.of_runIf .init hs)
  exact ⟨s, hs, hfrom, hdelivered, hwritten, (hrouted true).2, haddressed⟩

/-- The other client's packet is taken and handled, but no third one comes in. -/
theorem full_channel_blocks_flood : ∃ s t : SNMPAgent Bool Unit,
    runIf (step fun _ => none) (fun _ _ => True) new floodEvents = some s ∧
    runIf (step fun _ => none) (fun _ e => e ≠ .take 1) s [.take 0, .handle 0 none true] = some t ∧
    t.received = s.received ∧ t.listener = .sending 1 ⟨[8], none⟩ := by
  obtain ⟨s, t, c, hs, ht, hl, hc, hfull⟩ : ∃ (s t : SNMPAgent Bool Unit) (c : Client Bool),
      runIf (step fun _ => none) (fun _ _ => True) new floodEvents = some s ∧
      runIf (step fun _ => none) (fun _ e => e ≠ .take 1) s [.take 0, .handle 0 none true] = some t ∧
      s.listener = .sending 1 ⟨[8], none⟩ ∧ s.clients 1 = some c ∧ c.chan.items.length = 10 :=
    ⟨_, _, _, rfl, rfl, rfl, rfl, rfl⟩
  exact ⟨s, t, hs, ht, full_channel_blocks _ s t 1 _ c (.of_runIf .init hs) hl hc hfull
    (.of_runIf .init ht)⟩

end Runs

end SNMPAgent

end MgRaffle.SnmpAgent
