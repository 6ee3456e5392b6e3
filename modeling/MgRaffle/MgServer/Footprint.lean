import Mathlib.Data.List.GetD
import MgRaffle.MgServer.Server

namespace MgRaffle.MgServer

def MConnection.guardBufs (c : MConnection) : List BufId := c.parserBufs ++ c.queueBufs

namespace Ctrl

/-- The buffers under the guards of the requests that the thread has got hold of. -/
@[simp] def guardBufs : Ctrl → List BufId
  | .parse _ _ _ reqs => reqs.flatMap MRequest.guardBufs
  | .doRequest _ held _ => held.flatMap MRequest.guardBufs
  | .doResponse _ held _ _ _ => held.flatMap MRequest.guardBufs
  | _ => []

/-- The buffers that local variables refer to. -/
@[simp] def hands : Ctrl → List BufId
  | .recv w => [w.buf]
  | .parse w _ _ _ => [w.buf]
  | .doRequest w _ _ => [w.buf]
  | .doResponse w _ _ out _ => [w.buf, out]
  | _ => []

/-- The buffer that `Allocate` has returned and that nothing has been done with yet, other than
calling `recv` or `send` on it. -/
@[simp] def allocated : Ctrl → List BufId
  | .recv w => [w.buf]
  | .doResponse _ _ _ out _ => [out]
  | _ => []

/-- The buffer that is being parsed. -/
@[simp] def parsing : Ctrl → List BufId
  | .parse w _ _ _ => [w.buf]
  | _ => []

end Ctrl

namespace Server

/-- The buffers under all guards that are alive. -/
def guardBufs (s : Server) : List BufId := s.objs.flatMap MConnection.guardBufs ++ s.ctrl.guardBufs

end Server

section Requests

variable (r : MRequest) (g : MBufferGuard) (x : BufId)

theorem MRequest.count_header :
    { r with rpcHeaderBuf := r.rpcHeaderBuf.append g }.guardBufs.count x =
      r.guardBufs.count x + [g.buf].count x := by
  simp only [guardBufs, MReadBuf.append, List.map_append, List.map_cons, List.map_nil,
    List.count_append]
  omega

theorem MRequest.count_body :
    { r with rpcBodyBuf := r.rpcBodyBuf.append g }.guardBufs.count x =
      r.guardBufs.count x + [g.buf].count x := by
  simp only [guardBufs, MReadBuf.append, List.map_append, List.map_cons, List.map_nil,
    List.count_append]
  omega

end Requests

namespace MConnection

variable (c : MConnection) (p : MParser) (t : ParseType)

@[simp] theorem parserBufs_resetParser : (c.resetParser p).parserBufs = p.req.guardBufs := rfl

@[simp] theorem parserBufs_changeParseType : (c.changeParseType t).parserBufs = c.parserBufs := rfl

@[simp] theorem parserBufs_parserReset : c.parserReset.parserBufs = c.parserBufs := rfl

@[simp] theorem queueBufs_resetParser : (c.resetParser p).queueBufs = c.queueBufs := rfl

@[simp] theorem queueBufs_changeParseType : (c.changeParseType t).queueBufs = c.queueBufs := rfl

@[simp] theorem queueBufs_parserReset : c.parserReset.queueBufs = c.queueBufs := rfl

end MConnection

namespace ParseState

/-- The buffers under the guards that a call of `parse_connection` deals with. -/
def guardBufs (s : ParseState) : List BufId :=
  s.conn.guardBufs ++ s.reqs.flatMap MRequest.guardBufs

/-- The buffer that the coming turn of a loop builds a guard on. -/
def pinned (s : ParseState) : List BufId :=
  if s.loop = .splitMessage ∧ 0 < s.length ∧
      (s.conn.parseType = .rpcHeader ∨ s.conn.parseType = .rpcContent) then [s.id]
  else []

section Steps

variable {s t : ParseState} {x : BufId}

theorem guardBufs_magicCase (s : ParseState) : s.magicCase.guardBufs = s.guardBufs := by
  unfold magicCase guardBufs
  dsimp only
  split_ifs <;> rfl

theorem guardBufs_headerCase (s : ParseState) : s.headerCase.guardBufs = s.guardBufs := by
  unfold headerCase guardBufs
  dsimp only
  split_ifs <;> rfl

theorem count_rpcHeaderCase (s : ParseState) (x : BufId) :
    s.rpcHeaderCase.guardBufs.count x = s.guardBufs.count x + [s.id].count x := by
  have hreq := s.conn.theParser.req.count_header (.new s.id s.buf s.remain) x
  unfold rpcHeaderCase guardBufs MConnection.guardBufs
  dsimp only
  split_ifs <;>
  · simp only [MConnection.parserBufs_resetParser, MConnection.queueBufs_resetParser,
      MConnection.parserBufs_changeParseType, MConnection.queueBufs_changeParseType,
      List.count_append, hreq]
    show List.count x s.conn.parserBufs + List.count x [s.id] + _ +
      List.count x (s.reqs.flatMap _) = _
    omega

theorem count_rpcContentCase (s : ParseState) (x : BufId) :
    s.rpcContentCase.guardBufs.count x = s.guardBufs.count x + [s.id].count x := by
  have hreq := s.conn.theParser.req.count_body (.new s.id s.buf s.remain) x
  unfold rpcContentCase guardBufs MConnection.guardBufs
  dsimp only
  split_ifs
  · simp only [MConnection.parserBufs_resetParser, MConnection.queueBufs_resetParser,
      List.count_append, hreq]
    show List.count x s.conn.parserBufs + List.count x [s.id] + _ +
      List.count x (s.reqs.flatMap _) = _
    omega
  · -- the request moves to the queue, and the parser goes on with an empty one
    simp only [MConnection.parserBufs_parserReset, MConnection.queueBufs_parserReset,
      MConnection.parserBufs_resetParser, MConnection.queueBufs_resetParser, List.flatMap_append,
      List.flatMap_cons, List.flatMap_nil, List.append_nil, List.count_append, hreq]
    show 0 + _ + (_ + (List.count x s.conn.parserBufs + List.count x [s.id])) = _
    omega

/-- Guards move from the parser to the queue of requests, and a new one is on the buffer that
is parsed. -/
theorem count_step (h : s.step = some t) :
    t.guardBufs.count x = s.guardBufs.count x + s.pinned.count x := by
  cases stepped_of_step h with
  | magic hloop _ _ => rw [guardBufs_magicCase]; simp [pinned, hloop]
  | enter hloop _ _ => simp [pinned, hloop]; rfl
  | header hloop hpos htype => rw [guardBufs_headerCase]; simp [pinned, htype]
  | rpcHeader hloop hpos htype => rw [count_rpcHeaderCase, pinned, if_pos ⟨hloop, hpos, Or.inl htype⟩]
  | rpcContent hloop hpos htype =>
    rw [count_rpcContentCase, pinned, if_pos ⟨hloop, hpos, Or.inr htype⟩]
  | spin hloop hpos htype => simp [pinned, htype]
  | leave hloop hend => simp [pinned, hend]; rfl

theorem subset_step (h : s.step = some t) : s.guardBufs ⊆ t.guardBufs := by
  intro x hx
  have hcount := count_step (x := x) h
  have hpos := List.count_pos_iff.mpr hx
  apply List.count_pos_iff.mp
  omega

theorem sublist_pinned (s : ParseState) : s.pinned.Sublist [s.id] := by
  unfold pinned
  split_ifs
  · exact List.Sublist.refl _
  · exact List.nil_sublist _

theorem length_of_step_eq_none (h : s.step = none) : ¬ 0 < s.length := by
  intro hpos
  unfold step at h
  split at h
  · rw [if_pos hpos] at h
    split at h <;> cases h
  · rw [if_pos hpos] at h
    split at h <;> cases h

/-- What a step leaves alone. -/
theorem step_frame (h : s.step = some t) :
    t.id = s.id ∧ t.conn.sendBuf = s.conn.sendBuf ∧
      4294967296 ∣ t.buf.curIndex + t.length - (s.buf.curIndex + s.length) ∧
        t.buf.remain = s.buf.remain ∧ t.buf.capacity = s.buf.capacity := by
  have htake (k : ℤ) :
      4294967296 ∣ s.buf.curIndex + k + subRemain s.length k - (s.buf.curIndex + s.length) := by
    have hdvd := subRemain_dvd s.length k
    omega
  have hsame (k : ℤ) : (4294967296 : ℤ) ∣ k - k := by simp
  cases stepped_of_step h with
  | magic =>
    unfold magicCase
    dsimp only
    split_ifs <;> exact ⟨rfl, rfl, htake _, rfl, rfl⟩
  | enter => exact ⟨rfl, rfl, hsame _, rfl, rfl⟩
  | header =>
    unfold headerCase
    dsimp only
    split_ifs <;> exact ⟨rfl, rfl, htake _, rfl, rfl⟩
  | rpcHeader =>
    unfold rpcHeaderCase
    dsimp only
    split_ifs <;> exact ⟨rfl, rfl, htake _, rfl, rfl⟩
  | rpcContent =>
    unfold rpcContentCase
    dsimp only
    split_ifs <;> exact ⟨rfl, rfl, htake _, rfl, rfl⟩
  | spin => exact ⟨rfl, rfl, hsame _, rfl, rfl⟩
  | leave => exact ⟨rfl, rfl, hsame _, rfl, rfl⟩

/-- The counter stays an `int`. -/
theorem le_length_of_step (h : s.step = some t) (hs : -2147483648 ≤ s.length) :
    -2147483648 ≤ t.length := by
  have htake := le_subRemain s.remain_le
  cases stepped_of_step h with
  | magic | header | rpcHeader => exact htake
  | rpcContent =>
    unfold rpcContentCase
    dsimp only
    split_ifs <;> exact htake
  | enter | spin | leave => exact hs

/-- A guard of a request that was not there before is on the buffer that is parsed. -/
theorem mem_of_step (h : s.step = some t)
    (hx : x ∈ t.conn.parserBufs ++ t.reqs.flatMap MRequest.guardBufs) :
    x ∈ s.conn.parserBufs ++ s.reqs.flatMap MRequest.guardBufs ∨ x = s.id := by
  have hcount := count_step (x := x) h
  have hpin := s.sublist_pinned.count_le x
  -- the send queue counts alike on both sides
  have hqueue : t.conn.queueBufs = s.conn.queueBufs := by
    rw [MConnection.queueBufs, (step_frame h).2.1]
    rfl
  have hpos := List.count_pos_iff.mpr hx
  simp only [guardBufs, MConnection.guardBufs, List.count_append, hqueue] at hcount hpos
  by_cases hid : x = s.id
  · exact Or.inr hid
  · left
    rw [List.count_eq_zero.mpr (by simpa using hid : x ∉ [s.id])] at hpin
    apply List.count_pos_iff.mp
    rw [List.count_append]
    omega

end Steps

end ParseState

section Queue

variable {r r' : MReadBuf}

theorem MReadBuf.bufList_next {data : Region} (h : r.next = some (data, r')) :
    r'.bufList = r.bufList := by
  unfold next at h
  split at h <;> cases h
  rfl

theorem MReadBuf.bufList_backUp (r : MReadBuf) (count : ℤ) :
    (r.backUp count).bufList = r.bufList := by
  unfold backUp
  split_ifs <;> rfl

/-- `erase` takes one guard out of the list, or none. -/
theorem MReadBuf.perm_erase (r : MReadBuf) :
    (r.erase.1.toList ++ r.erase.2.bufList).Perm r.bufList := by
  unfold erase
  cases r.lastIt with
  | none => exact .refl _
  | some last =>
    dsimp only
    by_cases hcur : r.curIt = last
    · rw [if_pos hcur]
      exact .refl _
    · rw [if_neg hcur]
      by_cases hlt : last < r.bufList.length
      · rw [List.getElem?_eq_getElem hlt]
        exact List.getElem_cons_eraseIdx_perm hlt
      · rw [List.getElem?_eq_none (by omega), List.eraseIdx_of_length_le (by omega)]
        exact .refl _

/-- After the `send` of `SendBuf` every guard is still in the queue or was destroyed by it. -/
theorem perm_queuedSend {size : ℤ} {o : SysResult} {g : Option MBufferGuard}
    (h : queuedSend r size o = some (g, r')) : (g.toList ++ r'.bufList).Perm r.bufList := by
  have herase := r.perm_erase
  unfold queuedSend at h
  split_ifs at h <;> rw [Option.some.injEq] at h
  · cases h
    rw [MReadBuf.bufList_backUp]
    exact .refl _
  · cases h
    rw [MReadBuf.bufList_backUp]
    exact .refl _
  · rw [h] at herase
    exact herase

namespace MConnection

variable (c : MConnection)

theorem queueBufs_append (g : MBufferGuard) :
    { c with sendBuf := c.sendBuf.append g }.queueBufs = c.queueBufs ++ [g.buf] := by
  simp only [queueBufs, MReadBuf.append, List.map_append, List.map_cons, List.map_nil]

theorem guardBufs_append (g : MBufferGuard) :
    { c with sendBuf := c.sendBuf.append g }.guardBufs = c.guardBufs ++ [g.buf] := by
  rw [guardBufs, queueBufs_append, guardBufs, List.append_assoc]
  rfl

variable {c} {data : Region} {o : SysResult} {g : Option MBufferGuard}

/-- A turn of `SendBuf` gives back what leaves the queue. -/
theorem count_queueBufs_flushed (hnext : c.sendBuf.next = some (data, r))
    (ho : queuedSend r data.size o = some (g, r')) (x : BufId) :
    (g.toList.map fun g => g.buf).count x + { c with sendBuf := r' }.queueBufs.count x =
      c.queueBufs.count x := by
  have hperm := ((perm_queuedSend ho).map fun g => g.buf).count_eq x
  rwa [MReadBuf.bufList_next hnext, List.map_append, List.count_append] at hperm

theorem count_guardBufs_flushed (hnext : c.sendBuf.next = some (data, r))
    (ho : queuedSend r data.size o = some (g, r')) (x : BufId) :
    (g.toList.map fun g => g.buf).count x + { c with sendBuf := r' }.guardBufs.count x =
      c.guardBufs.count x := by
  have hqueue := count_queueBufs_flushed hnext ho x
  simp only [guardBufs, List.count_append]
  show _ + (c.parserBufs.count x + _) = _
  omega

end MConnection

end Queue

section Objects

variable (f : MConnection → List BufId)

theorem count_flatMap_set {d : MConnection} (hd : f d = []) (l : List MConnection) (i : ℕ)
    (a : MConnection) (x : BufId) :
    ((l.set i a).flatMap f).count x + (f (l.getD i d)).count x ≤
      (l.flatMap f).count x + (f a).count x := by
  induction l generalizing i with
  | nil => simp [hd]
  | cons b l ih =>
    cases i with
    | zero =>
      simp only [List.set_cons_zero, List.flatMap_cons, List.count_append, List.getD_cons_zero]
      omega
    | succ i =>
      have h := ih i
      simp only [List.set_cons_succ, List.flatMap_cons, List.count_append, List.getD_cons_succ]
      omega

namespace Server

variable (s : Server) (c : ConnId) (o : MConnection) {x : BufId}

theorem giveBack_nil : s.giveBack [] = s := by rw [giveBack, List.append_nil]

/-- What the connections hold after one of them is replaced. -/
theorem count_setObj (hf : f (.new 0) = []) (x : BufId) :
    ((s.setObj c o).objs.flatMap f).count x + (f (s.obj c)).count x ≤
      (s.objs.flatMap f).count x + (f o).count x :=
  count_flatMap_set f hf s.objs c o x

theorem obj_setObj_self (hc : c < s.objs.length) : (s.setObj c o).obj c = o := by
  rw [obj, setObj_objs, List.getD_eq_getElem _ _ (by rwa [List.length_set]),
    List.getElem_set_self]

theorem obj_setObj_of_ne {d : ConnId} (hd : d ≠ c) : (s.setObj c o).obj d = s.obj d := by
  rw [obj, obj, setObj_objs, List.getD_eq_getElem?_getD, List.getD_eq_getElem?_getD,
    List.getElem?_set_ne hd.symm]

theorem mem_objs_of_mem_obj (hf : f (.new 0) = []) (hx : x ∈ f (s.obj c)) : x ∈ s.objs.flatMap f := by
  unfold obj at hx
  by_cases hc : c < s.objs.length
  · rw [List.getD_eq_getElem _ _ hc] at hx
    exact List.mem_flatMap.mpr ⟨_, List.getElem_mem hc, hx⟩
  · rw [List.getD_eq_default _ _ (Nat.le_of_not_lt hc), hf] at hx
    cases hx

theorem mem_of_mem_setObj (hx : x ∈ (s.setObj c o).objs.flatMap f) :
    x ∈ s.objs.flatMap f ∨ x ∈ f o := by
  obtain ⟨y, hy, hxy⟩ := List.mem_flatMap.mp hx
  rcases List.mem_or_eq_of_mem_set hy with hy | rfl
  · exact Or.inl (List.mem_flatMap.mpr ⟨y, hy, hxy⟩)
  · exact Or.inr hxy

end Server

end Objects

end MgRaffle.MgServer
