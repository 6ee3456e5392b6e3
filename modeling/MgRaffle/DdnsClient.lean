import MgRaffle.Library.Stepping

namespace MgRaffle.DdnsClient
open Stepping

def aliyunScheme : String := "https"

/-- A record of the domain, as `DescribeDomainRecords` returns it. -/
structure DomainRecord where
  recordId : String
  rr : String
  type : String
  deriving Repr, DecidableEq

structure UpdateRequest where
  scheme : String
  rr : String
  recordId : String
  type : String
  value : String
  deriving Repr, DecidableEq

/-- What `DescribeDomainRecords` returns, with whether the update of each record would succeed. -/
structure DomainRecords where
  totalCount : ℤ
  record : List (DomainRecord × Bool)
  deriving Repr, DecidableEq

/-- What a tick meets: the answers of `GetExternalIP` and `DescribeDomainRecords`, `none` where they
fail, and whether there is a client. -/
structure Tick where
  externalIP : Option String
  client : Bool
  describe : Option DomainRecords
  deriving Repr, DecidableEq

/-- `preIP` with the remote records: their values, and those that the last successful describe has
returned. -/
structure Ddns where
  preIP : String
  values : String → String
  described : List DomainRecord

namespace Ddns

def start (values : String → String) : Ddns := ⟨"", values, []⟩

def updateRequest (record : DomainRecord) (externalIP : String) : UpdateRequest where
  scheme := aliyunScheme
  rr := record.rr
  recordId := record.recordId
  type := record.type
  value := externalIP

/-- A successful `UpdateDomainRecord` sets the value of the record. -/
def updateDomainRecord (s : Ddns) (subReq : UpdateRequest) : Ddns :=
  { s with values := Function.update s.values subReq.recordId subReq.value }

/-- The body of the loop over the records. -/
def updateRecord (externalIP : String) (s : Ddns) (record : DomainRecord × Bool) : Ddns :=
  if record.1.type ≠ "A" then s
  else if record.2 then
    { s.updateDomainRecord (updateRequest record.1 externalIP) with preIP := externalIP }
  else s

/-- The tick returns at "ip not change". -/
def StopsEarly (s : Ddns) (externalIP : String) : Prop := s.preIP = externalIP

instance (s : Ddns) (externalIP : String) : Decidable (s.StopsEarly externalIP) :=
  inferInstanceAs (Decidable (_ = _))

def aliyunDDNSClient (s : Ddns) (e : Tick) : Ddns :=
  match e.externalIP with
  | none => s
  | some externalIP =>
    if s.StopsEarly externalIP then s
    else if ¬ e.client then s
    else match e.describe with
      | none => s
      | some domainRecords =>
        let s := { s with described := domainRecords.record.map Prod.fst }
        if domainRecords.totalCount > 0 then
          domainRecords.record.foldl (updateRecord externalIP) s
        else s

def step (s : Ddns) (e : Tick) : Option Ddns := some (s.aliyunDDNSClient e)

/-- If the next tick stops early, every A record of the last successful describe holds its IP. -/
def Settled (s : Ddns) : Prop :=
  ∀ externalIP, s.StopsEarly externalIP →
    ∀ r ∈ s.described, r.type = "A" → s.values r.recordId = externalIP

end Ddns

/-- The records of a list that are updated. -/
def successes (records : List (DomainRecord × Bool)) : List DomainRecord :=
  (records.filter fun x => x.1.type = "A" ∧ x.2).map Prod.fst

/-- The records of an answer that are updated. -/
def DomainRecords.updated (d : DomainRecords) : List DomainRecord :=
  if d.totalCount > 0 then successes d.record else []

namespace Ddns

/-- The external IP and the records of a tick that gets as far as a successful describe. -/
def answered (s : Ddns) (e : Tick) : Option (String × DomainRecords) :=
  match e.externalIP, e.describe with
  | some externalIP, some domainRecords =>
    if s.StopsEarly externalIP ∨ ¬ e.client then none else some (externalIP, domainRecords)
  | _, _ => none

/-- Of the A records of a describe, some are updated and then all those that do not hold the new IP
already; or none is, and all hold `preIP`. -/
def Completes (s : Ddns) (e : Tick) : Prop :=
  match s.answered e with
  | none => True
  | some (externalIP, d) =>
    if d.updated = [] then ∀ x ∈ d.record, x.1.type = "A" → s.values x.1.recordId = s.preIP
    else ∀ x ∈ d.record, x.1.type = "A" → x.1.recordId ∈ d.updated.map DomainRecord.recordId ∨
      s.values x.1.recordId = externalIP

variable {s s' : Ddns} {e : Tick} {externalIP : String} {d : DomainRecords}

theorem settled_iff :
    s.Settled ↔ ∀ r ∈ s.described, r.type = "A" → s.values r.recordId = s.preIP := by
  constructor
  · intro h
    exact h s.preIP rfl
  · intro h ip hip
    rw [← hip]
    exact h

theorem aliyunDDNSClient_of_answered_none (h : s.answered e = none) : s.aliyunDDNSClient e = s := by
  unfold answered at h
  unfold aliyunDDNSClient
  cases hip : e.externalIP with
  | none => rfl
  | some ip =>
    cases hd : e.describe with
    | none => simp only [ite_self]
    | some d =>
      rw [hip, hd] at h
      simp only [ite_eq_left_iff, reduceCtorEq, imp_false, not_not] at h
      cases h with
      | inl hstop => simp only [if_pos hstop]
      | inr hclient => simp only [if_pos hclient, ite_self]

theorem aliyunDDNSClient_of_answered (h : s.answered e = some (externalIP, d)) :
    s.aliyunDDNSClient e =
      if d.totalCount > 0 then
        d.record.foldl (updateRecord externalIP) { s with described := d.record.map Prod.fst }
      else { s with described := d.record.map Prod.fst } := by
  unfold answered at h
  unfold aliyunDDNSClient
  cases hip : e.externalIP with
  | none =>
    rw [hip] at h
    cases h
  | some ip =>
    cases hd : e.describe with
    | none =>
      rw [hip, hd] at h
      cases h
    | some d =>
      rw [hip, hd] at h
      simp only [Option.ite_none_left_eq_some, Option.some.injEq, Prod.mk.injEq, not_or] at h
      have hstop := h.1.1
      rw [h.2.1] at hstop
      simp only [if_neg hstop, if_neg h.1.2, h.2.1, h.2.2]

/-- The state once the records of the list `updated` have been given the new IP. -/
def assign (s : Ddns) (externalIP : String) (updated : List DomainRecord) : Ddns where
  preIP := if updated = [] then s.preIP else externalIP
  values id := if id ∈ updated.map DomainRecord.recordId then externalIP else s.values id
  described := s.described

theorem assign_nil : s.assign externalIP [] = s := by
  simp [assign]

theorem assign_cons (r : DomainRecord) (rest : List DomainRecord) :
    s.assign externalIP (r :: rest) =
      assign { s.updateDomainRecord (updateRequest r externalIP) with preIP := externalIP }
        externalIP rest := by
  unfold assign
  rw [Ddns.mk.injEq]
  refine ⟨?_, ?_, rfl⟩
  · rw [if_neg (List.cons_ne_nil r rest), ite_self]
  · funext id
    simp only [List.map_cons, List.mem_cons, updateDomainRecord, updateRequest]
    by_cases hid : id = r.recordId
    · rw [if_pos (Or.inl hid), hid, Function.update_self, ite_self]
    · simp only [hid, false_or, Function.update_of_ne hid]

theorem foldl_updateRecord (records : List (DomainRecord × Bool)) :
    records.foldl (updateRecord externalIP) s = s.assign externalIP (successes records) := by
  induction records generalizing s with
  | nil => exact assign_nil.symm
  | cons x records ih =>
    rw [List.foldl_cons, ih, updateRecord]
    unfold successes
    by_cases htype : x.1.type = "A"
    · rw [if_neg (not_not.mpr htype)]
      cases hok : x.2 with
      | true =>
        rw [List.filter_cons_of_pos (by simp [htype, hok]), List.map_cons, assign_cons, if_pos rfl]
      | false => rw [List.filter_cons_of_neg (by simp [hok]), if_neg Bool.false_ne_true]
    · rw [if_pos htype, List.filter_cons_of_neg (by simp [htype])]

/-- A tick with an answer gives the new IP to the records it updates. -/
theorem aliyunDDNSClient_eq_assign (h : s.answered e = some (externalIP, d)) :
    s.aliyunDDNSClient e =
      assign { s with described := d.record.map Prod.fst } externalIP d.updated := by
  rw [aliyunDDNSClient_of_answered h]
  unfold DomainRecords.updated
  split_ifs
  · exact foldl_updateRecord d.record
  · exact assign_nil.symm

/-- A tick leaves a settled state exactly if it completes what it starts. -/
theorem settled_step (h : s.Settled) (hstep : s.step e = some s') : s'.Settled ↔ s.Completes e := by
  have hs' := Option.some.inj hstep
  rw [← hs']
  unfold Completes
  cases hans : s.answered e with
  | none =>
    rw [aliyunDDNSClient_of_answered_none hans]
    exact iff_of_true h trivial
  | some answer =>
    rw [aliyunDDNSClient_eq_assign hans, settled_iff]
    simp only [assign, List.forall_mem_map]
    split_ifs with hnone
    · simp [hnone]
    · apply forall₃_congr
      intro x _ _
      rw [ite_eq_left_iff]
      exact imp_iff_or_not.trans (by rw [not_not, or_comm])

/-- A tick that stops early finds the IP in all records exactly in the runs in which every tick
completes what it starts. -/
theorem settled_iff_completes (values : String → String) (ticks : List Tick) :
    Throughout step Settled (start values) ticks ↔ EachStep step Completes (start values) ticks := by
  apply throughout_iff (fun _ => True)
  · exact fun _ _ _ _ _ => trivial
  · exact fun _ _ _ _ h hstep => settled_step h hstep
  · trivial
  · intro _ _ r hr
    exact absurd hr List.not_mem_nil

/-- Of two A records only the first is updated; at the next tick the IP has not changed, and the
second one is left with the old value. -/
theorem second_record_left_behind : ¬ ∀ ticks : List Tick,
    Throughout step Settled (start fun _ => "1.1.1.1") ticks := by
  intro h
  have hrun := h [⟨some "2.2.2.2", true, some ⟨2, [(⟨"1", "www", "A"⟩, true),
    (⟨"2", "mail", "A"⟩, false)]⟩⟩]
  have hsettled := hrun.2 _ rfl "2.2.2.2" rfl ⟨"2", "mail", "A"⟩ (by decide) rfl
  revert hsettled
  decide

end Ddns

end MgRaffle.DdnsClient
