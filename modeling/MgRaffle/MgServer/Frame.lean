import MgRaffle.Library.Collector
import MgRaffle.MgServer.Parser

namespace MgRaffle.MgServer
open Collector

/-- A frame of a byte stream: the magic bytes when it is the first one, the two lengths, and
the two parts. -/
structure Frame where
  start : ℕ
  opening : List UInt8
  lengths : List UInt8
  header : List UInt8
  body : List UInt8
  deriving Repr, DecidableEq

def Frame.bytes (f : Frame) : List UInt8 := f.opening ++ f.lengths ++ f.header ++ f.body

def Frame.stop (f : Frame) : ℕ := f.start + f.bytes.length

/-- The part of the stream that the next byte belongs to. Each part carries the magic bytes
read at the beginning and the offset at which the current frame starts. -/
inductive Part
  | magic
  | between (magic : List UInt8) (start : ℕ)
  | lengths (magic : List UInt8) (start : ℕ)
  | header (magic : List UInt8) (start : ℕ) (lengths : List UInt8)
  | body (magic : List UInt8) (start : ℕ) (lengths header : List UInt8)
  deriving Repr, DecidableEq

/-- Only the frame at offset 0 has magic bytes in front. -/
def opening (magic : List UInt8) (start : ℕ) : List UInt8 := if start = 0 then magic else []

/-- The grammar of the stream as the server reads it. -/
def frameReader : Reader Part UInt8 Frame where
  need
    | .magic => 4
    | .between _ _ => 0
    | .lengths _ _ => 8
    | .header _ _ ls => MLengthHeader.rpcHeaderLength ls
    | .body _ _ ls _ => MLengthHeader.rpcBodyLength ls
  finish p got :=
    match p with
    | .magic => (.lengths got 0, [])
    | .between m start => (.lengths m start, [])
    | .lengths m start => (.header m start got, [])
    | .header m start ls => (.body m start ls got, [])
    | .body m start ls h =>
      let f : Frame := ⟨start, opening m start, ls, h, got⟩
      (.between m f.stop, [f])

/-- Nothing has been read. -/
def fresh : State Part UInt8 := ⟨.magic, []⟩

def frameReader_ranked : frameReader.Ranked where
  rank
    | .magic => 0
    | .between _ _ => 1
    | .lengths _ _ => 0
    | .header _ _ _ => 3
    | .body _ _ _ _ => 2
  rank_finish p h := by
    cases p <;> simp [frameReader] at h ⊢

section Lengths

def Part.LengthsNonneg : Part → Prop
  | .header _ _ ls | .body _ _ ls _ =>
    0 ≤ MLengthHeader.rpcHeaderLength ls ∧ 0 ≤ MLengthHeader.rpcBodyLength ls
  | _ => True

/-- Every length field decoded from the stream is non-negative. -/
def LengthsNonneg (stream : List UInt8) : Prop :=
  ∀ t ys fs, frameReader.Visits fresh stream t ys fs → t.part.LengthsNonneg

/-- Every length field that is about to be counted down is non-negative. -/
def LoadedNonneg (stream : List UInt8) : Prop :=
  ∀ t ys fs, frameReader.Visits fresh stream t ys fs → 0 ≤ frameReader.need t.part

/-- Every length field that is counted down with bytes at hand is non-negative. -/
def ActedNonneg (stream : List UInt8) : Prop :=
  ∀ t ys fs, frameReader.Visits fresh stream t ys fs → ys ≠ [] → 0 ≤ frameReader.need t.part

variable {stream : List UInt8}

instance (p : Part) : Decidable p.LengthsNonneg := by
  cases p <;> unfold Part.LengthsNonneg <;> infer_instance

theorem lengthsNonneg_of_check {fuel : ℕ}
    (h : frameReader.check (fun s => decide s.part.LengthsNonneg) fuel fresh stream = true) :
    LengthsNonneg stream :=
  fun _ _ _ hv => of_decide_eq_true (check_sound h hv)

theorem loadedNonneg_of_reads {t : State Part UInt8} {fs : List Frame}
    (h : frameReader.Reads fresh stream t fs) (ht : 0 ≤ frameReader.need t.part) :
    LoadedNonneg stream := by
  intro u ys gs hv
  by_cases hne : ys = []
  · subst hne
    obtain ⟨rfl, -⟩ := Reader.Reads.unique h hv
    exact ht
  · have := need_of_reads h hv hne
    omega

theorem LengthsNonneg.loaded (h : LengthsNonneg stream) : LoadedNonneg stream := by
  intro t ys fs hv
  have ht := h t ys fs hv
  cases hp : t.part <;> rw [hp] at ht <;> simp only [frameReader] <;>
    first | exact ht.1 | exact ht.2 | norm_num

theorem LoadedNonneg.acted (h : LoadedNonneg stream) : ActedNonneg stream :=
  fun t ys fs hv _ => h t ys fs hv

theorem ActedNonneg.reads (h : ActedNonneg stream) :
    ∃ t fs, frameReader.Reads fresh stream t fs :=
  reads_of_nonneg frameReader_ranked (Or.inl rfl) h

theorem acted_of_reads {t : State Part UInt8} {fs : List Frame}
    (h : frameReader.Reads fresh stream t fs) : ActedNonneg stream := by
  intro u ys gs hv hne
  have := need_of_reads h hv hne
  omega

end Lengths

section Tiling

/-- The bytes of the frame in progress that have been read. -/
def inProgress (s : State Part UInt8) : List UInt8 :=
  match s.part with
  | .magic => s.got
  | .between _ _ => s.got
  | .lengths m start => opening m start ++ s.got
  | .header m start ls => opening m start ++ ls ++ s.got
  | .body m start ls h => opening m start ++ ls ++ h ++ s.got

def Part.start : Part → ℕ
  | .magic => 0
  | .between _ start | .lengths _ start | .header _ start _ | .body _ start _ _ => start

/-- The frames follow one another from offset `start` on and end at offset `stop`. -/
def Tiles : ℕ → List Frame → ℕ → Prop
  | start, [], stop => start = stop
  | start, f :: fs, stop => f.start = start ∧ Tiles f.stop fs stop

def Part.Wf : Part → Prop
  | .magic => True
  | .between m start => m.length = 4 ∧ 0 < start
  | .lengths m _ => m.length = 4
  | .header m _ ls => m.length = 4 ∧ ls.length = 8
  | .body m _ ls h => m.length = 4 ∧ ls.length = 8 ∧ MLengthHeader.rpcHeaderLength ls = h.length

def Frame.Wf (f : Frame) : Prop :=
  f.opening.length = (if f.start = 0 then 4 else 0) ∧ f.lengths.length = 8 ∧
    MLengthHeader.rpcHeaderLength f.lengths = f.header.length ∧
    MLengthHeader.rpcBodyLength f.lengths = f.body.length

variable {s t : State Part UInt8} {xs ys : List UInt8} {fs : List Frame}

theorem length_opening {m : List UInt8} {start : ℕ} (h : m.length = 4) :
    (opening m start).length = if start = 0 then 4 else 0 := by
  unfold opening
  split_ifs <;> simp [h]

theorem wf_finish (p : Part) (got : List UInt8) (hp : p.Wf)
    (hneed : frameReader.need p = (got.length : ℕ)) :
    (frameReader.finish p got).1.Wf ∧ ∀ f ∈ (frameReader.finish p got).2, f.Wf := by
  cases p with
  | magic =>
    have : got.length = 4 := by simp only [frameReader] at hneed; omega
    exact ⟨this, by simp [frameReader]⟩
  | between m start => exact ⟨hp.1, by simp [frameReader]⟩
  | lengths m start =>
    have : got.length = 8 := by simp only [frameReader] at hneed; omega
    exact ⟨⟨hp, this⟩, by simp [frameReader]⟩
  | header m start ls => exact ⟨⟨hp.1, hp.2, hneed⟩, by simp [frameReader]⟩
  | body m start ls h =>
    obtain ⟨hm, hls, hh⟩ := hp
    -- a frame has its eight length bytes, so the next one does not start at zero
    refine ⟨⟨hm, ?_⟩, ?_⟩
    · simp only [Frame.stop, Frame.bytes, List.length_append]
      omega
    · simp only [frameReader, List.mem_singleton, forall_eq]
      exact ⟨length_opening hm, hls, hh, hneed⟩

theorem wf_of_visits (h : frameReader.Visits s xs t ys fs) (hs : s.part.Wf) :
    t.part.Wf ∧ ∀ f ∈ fs, f.Wf :=
  h.invariant wf_finish hs

/-- A filled part moves its bytes into the next part or into the frame it completes. -/
theorem inProgress_finish (p : Part) (got : List UInt8) (hp : p.Wf)
    (hneed : frameReader.need p = (got.length : ℕ)) :
    inProgress ⟨p, got⟩ = (frameReader.finish p got).2.flatMap Frame.bytes ++
      inProgress ⟨(frameReader.finish p got).1, []⟩ := by
  cases p with
  | magic => simp [inProgress, frameReader, opening]
  | between m start =>
    -- the magic bytes are not read again: this part takes nothing
    have hgot : got = [] := by simpa [frameReader, eq_comm] using hneed
    have hstart : start ≠ 0 := hp.2.ne'
    simp [inProgress, frameReader, opening, hgot, hstart]
  | lengths m start => simp [inProgress, frameReader]
  | header m start ls => simp [inProgress, frameReader]
  | body m start ls h => simp [inProgress, frameReader, Frame.bytes]

theorem tiles_finish (p : Part) (got : List UInt8) :
    Tiles p.start (frameReader.finish p got).2 (frameReader.finish p got).1.start := by
  cases p <;> simp [frameReader, Tiles, Part.start]

theorem Tiles.append {a b d : ℕ} {fs gs : List Frame} (h₁ : Tiles a fs b) (h₂ : Tiles b gs d) :
    Tiles a (fs ++ gs) d := by
  induction fs generalizing a with
  | nil =>
    cases h₁
    exact h₂
  | cons f fs ih => exact ⟨h₁.1, ih h₁.2⟩

/-- What has been read is the frames emitted, end to end, and the one in progress. -/
theorem tiles_of_visits (h : frameReader.Visits s xs t ys fs) (hs : s.part.Wf) :
    inProgress s ++ xs = fs.flatMap Frame.bytes ++ inProgress t ++ ys ∧
      Tiles s.part.start fs t.part.start := by
  induction h with
  | refl => exact ⟨by simp, rfl⟩
  | @round s t u xs ys zs o out hne hr _ ih =>
    have hround : inProgress s ++ xs = o.flatMap Frame.bytes ++ inProgress t ++ ys ∧
        Tiles s.part.start o t.part.start ∧ t.part.Wf := by
      obtain ⟨as, rfl, ⟨-, rfl, rfl, rfl⟩ | ⟨hneed, rfl, rfl⟩⟩ := round_cases hr
      · -- the round stops inside the part, nothing is emitted
        refine ⟨?_, rfl, hs⟩
        cases hp : s.part <;> simp [inProgress, hp]
      · have hgot : frameReader.need s.part = ((s.got ++ as).length : ℕ) := by
          rw [List.length_append]
          push_cast
          exact hneed
        have happ : inProgress s ++ as = inProgress ⟨s.part, s.got ++ as⟩ := by
          cases hp : s.part <;> simp [inProgress, hp]
        refine ⟨?_, tiles_finish _ _, (wf_finish _ _ hs hgot).1⟩
        rw [← List.append_assoc, happ, inProgress_finish _ _ hs hgot]
    obtain ⟨hbytes, htiles, hwf⟩ := hround
    obtain ⟨hbytes', htiles'⟩ := ih hwf
    refine ⟨?_, htiles.append htiles'⟩
    rw [hbytes, List.append_assoc, hbytes', List.flatMap_append]
    simp only [List.append_assoc]

/-- The offset in the stream up to which it has been read. -/
def position (s : State Part UInt8) : ℕ := s.part.start + (inProgress s).length

theorem position_of_tiles {a b : ℕ} (h : Tiles a fs b) :
    b = a + (fs.flatMap Frame.bytes).length := by
  induction fs generalizing a with
  | nil => simpa [Tiles, eq_comm] using h
  | cons f fs ih =>
    obtain ⟨rfl, hrest⟩ := h
    rw [ih hrest, Frame.stop, List.flatMap_cons, List.length_append]
    omega

theorem position_of_visits (h : frameReader.Visits s xs t ys fs) (hs : s.part.Wf) :
    position s + xs.length = position t + ys.length := by
  obtain ⟨hbytes, htiles⟩ := tiles_of_visits h hs
  have hlen := congrArg List.length hbytes
  have hstart := position_of_tiles htiles
  simp only [List.length_append] at hlen
  unfold position
  omega

end Tiling

end MgRaffle.MgServer
