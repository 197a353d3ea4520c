import Temps.Lib.Octets
import Temps.PtyAgent.Replay

namespace Temps.PtyAgent.Frames

open Lib.Octets Replay List

def maxFrameBytes : ℕ := 4 * 1024 * 1024

def opOutput : UInt8 := 0x81

def opExit : UInt8 := 0x83

abbrev Frame := UInt8 × Chunk

inductive FrameError where
  | oversized (size : ℕ)
  deriving DecidableEq

/-- The length, big-endian in four bytes, the type and the payload. -/
def encode (frame : Frame) : Chunk := (le 4 (1 + frame.2.length)).reverse ++ frame.1 :: frame.2

/-- The bytes that are written to a socket that takes them all. -/
def writeFrame (frame : Frame) : Except FrameError Chunk :=
  let len := 1 + frame.2.length
  if maxFrameBytes < len then .error (.oversized len) else .ok (encode frame)

theorem writeFrame_eq {frame : Frame} (h : frame.2.length < maxFrameBytes) :
    writeFrame frame = .ok (encode frame) := if_neg (by omega)

/-- What a read of the pty yields before its end. -/
structure PtyRead where
  bytes : Chunk
  nonempty : bytes ≠ []
  length_le : bytes.length ≤ readBytes

/-- The messages of the pty reader to a subscriber, from its subscription on; `json` is the exit
event. -/
def ptyReaderTask (reads : List PtyRead) (json : Chunk) : List Chunk :=
  reads.map PtyRead.bytes ++ [exitTag :: json]

/-- The frames that are written for the messages; the first one that is taken for an exit event, or
that cannot be written, is the last. -/
def broadcastForward : List Chunk → List Frame
  | [] => []
  | chunk :: rest =>
    if isExit chunk then
      match writeFrame (opExit, chunk.drop 1) with
      | .ok _ => [(opExit, chunk.drop 1)]
      | .error _ => []
    else
      match writeFrame (opOutput, chunk) with
      | .ok _ => (opOutput, chunk) :: broadcastForward rest
      | .error _ => []

variable {reads : List PtyRead} {json : Chunk}

theorem forward_cons {read : PtyRead} (h : isExit read.bytes = false) (rest : List Chunk) :
    broadcastForward (read.bytes :: rest) = (opOutput, read.bytes) :: broadcastForward rest := by
  have hlt : read.bytes.length < maxFrameBytes :=
    read.length_le.trans_lt (by rw [readBytes, maxFrameBytes]; omega)
  rw [broadcastForward, if_neg (by simp [h]), writeFrame_eq hlt]

theorem forward_outputs (h : ∀ read ∈ reads, isExit read.bytes = false) (rest : List Chunk) :
    broadcastForward (reads.map PtyRead.bytes ++ rest) =
      reads.map (opOutput, ·.bytes) ++ broadcastForward rest := by
  induction reads with
  | nil => rfl
  | cons read reads ih =>
    obtain ⟨hread, h⟩ := forall_mem_cons.mp h
    rw [map_cons, cons_append, forward_cons hread, ih h]
    rfl

theorem forward_exit : broadcastForward [exitTag :: json] = [(opExit, json)] ↔
    json.length < maxFrameBytes := by
  rw [broadcastForward, if_pos (by rfl)]
  by_cases hlen : json.length < maxFrameBytes
  · rw [writeFrame_eq hlen]
    exact iff_of_true rfl hlen
  · rw [writeFrame, if_pos (by change _ < 1 + json.length; omega)]
    exact iff_of_false nofun hlen

theorem plain_of_forward (h : broadcastForward (ptyReaderTask reads json) =
    reads.map (opOutput, ·.bytes) ++ [(opExit, json)]) :
    (∀ read ∈ reads, isExit read.bytes = false) ∧ json.length < maxFrameBytes := by
  induction reads with
  | nil => exact ⟨nofun, forward_exit.mp h⟩
  | cons read reads ih =>
    rw [ptyReaderTask, map_cons, cons_append] at h
    cases hexit : isExit read.bytes with
    | false =>
      rw [forward_cons hexit] at h
      obtain ⟨hall, hlen⟩ := ih (cons.inj h).2
      exact ⟨forall_mem_cons.mpr ⟨hexit, hall⟩, hlen⟩
    | true =>
      rw [broadcastForward, if_pos hexit] at h
      split at h <;> cases h

/-- A subscriber is sent every chunk as output and then the exit event, and none before, exactly
when no chunk begins with the byte that marks an exit event and the exit event fits in a frame. -/
theorem exit_told_apart_iff (reads : List PtyRead) (json : Chunk) :
    (broadcastForward (ptyReaderTask reads json) =
        reads.map (opOutput, ·.bytes) ++ [(opExit, json)] ∧
      ∀ n ≤ reads.length, ∀ frame ∈ broadcastForward ((ptyReaderTask reads json).take n),
        frame.1 ≠ opExit) ↔
    (∀ read ∈ reads, read.bytes.head? ≠ some exitTag) ∧ json.length < maxFrameBytes := by
  have hplain : (∀ read ∈ reads, read.bytes.head? ≠ some exitTag) ↔
      ∀ read ∈ reads, isExit read.bytes = false := by simp [isExit]
  rw [hplain]
  refine ⟨fun h ↦ plain_of_forward h.1, ?_⟩
  rintro ⟨hall, hlen⟩
  refine ⟨?_, fun n hn ↦ ?_⟩
  · rw [ptyReaderTask, forward_outputs hall, forward_exit.mpr hlen]
  · have hfirst : ∀ read ∈ reads.take n, isExit read.bytes = false :=
      fun read hread ↦ hall read (mem_of_mem_take hread)
    have hfront := forward_outputs hfirst []
    rw [append_nil, broadcastForward, append_nil] at hfront
    rw [ptyReaderTask, take_append_of_le_length (by simpa using hn), ← map_take, hfront]
    have hne : opOutput ≠ opExit := by decide
    exact forall_mem_map.mpr fun _ _ ↦ hne

/-- Output that begins with the byte 0xFE ends the terminal of the client. -/
theorem output_taken_for_exit :
    broadcastForward ((ptyReaderTask [⟨[0xFE, 0xFF], by decide, by decide⟩] []).take 1) =
      [(opExit, [0xFF])] := by
  decide

inductive DecodeError where
  | empty
  | oversized (size : ℕ)

/-- `FrameCodec::decode`: a frame and what is left of the buffer, unless more bytes are needed. -/
def decode (src : Chunk) : Except DecodeError (Option (Frame × Chunk)) :=
  if src.length < 4 then .ok none
  else
    let len := ofLe (src.take 4).reverse
    if len = 0 then .error .empty
    else if maxFrameBytes < len then .error (.oversized len)
    else if src.length < 4 + len then .ok none
    else
      let payload := (src.drop 4).take len
      .ok (some ((payload.headD 0, payload.tail), src.drop (4 + len)))

/-- The bytes on their way, those that `FramedRead` has buffered, and the frames it has yielded. -/
structure Reader where
  wire : Chunk
  buffer : Chunk
  yielded : List Frame

/-- A read of some bytes, or a call of the decoder. -/
def Reader.poll (s : Reader) : Option ℕ → Except DecodeError Reader
  | some n => .ok { s with wire := s.wire.drop n, buffer := s.buffer ++ s.wire.take n }
  | none => (decode s.buffer).map fun
    | none => s
    | some (frame, rest) => { s with buffer := rest, yielded := s.yielded ++ [frame] }

/-- A frame that `writeFrame` does not refuse. -/
abbrev Sent := { frame : Frame // frame.2.length < maxFrameBytes }

def Sent.bytes (frames : List Sent) : Chunk := frames.flatMap (encode ·.1)

theorem exists_rest {a b c d : Chunk} (h : a ++ b = c ++ d) (hle : c.length ≤ a.length) :
    ∃ r, a = c ++ r ∧ r ++ b = d := by
  rcases append_eq_append_iff.mp h with ⟨r, rfl, rfl⟩ | ⟨r, rfl, rfl⟩
  · obtain rfl : r = [] := by simpa using hle
    exact ⟨[], by simp⟩
  · exact ⟨r, rfl, rfl⟩

theorem decode_header {n : ℕ} (hpos : 0 < n) (hmax : n ≤ maxFrameBytes) (tail : Chunk) :
    decode ((le 4 n).reverse ++ tail) = .ok (if tail.length < n then none
      else some (((tail.take n).headD 0, (tail.take n).tail), tail.drop n)) := by
  have hsize : ofLe (le 4 n) = n := ofLe_le (hmax.trans_lt (by decide))
  have htake : ((le 4 n).reverse ++ tail).take 4 = (le 4 n).reverse := take_left' (by simp)
  have hdrop : ((le 4 n).reverse ++ tail).drop 4 = tail := drop_left' (by simp)
  simp only [decode, length_append, length_reverse, length_le, htake, reverse_reverse, hsize,
    ← drop_drop, hdrop, Nat.add_lt_add_iff_left]
  rw [if_neg (by omega), if_neg hpos.ne', if_neg (by omega)]
  split <;> rfl

theorem decode_stream {later : List Sent} {buffer wire : Chunk}
    (h : buffer ++ wire = Sent.bytes later) :
    decode buffer = .ok none ∧ (wire = [] → later = []) ∨
      ∃ frame next rest, later = frame :: next ∧ decode buffer = .ok (some (frame.1, rest)) ∧
        rest ++ wire = Sent.bytes next := by
  cases later with
  | nil =>
    rw [(append_eq_nil_iff.mp h).1]
    exact .inl ⟨rfl, fun _ ↦ rfl⟩
  | cons frame next =>
    have hmax := frame.2
    rw [Sent.bytes, flatMap_cons, encode, append_assoc] at h
    have hwait : buffer.length < 5 + frame.1.2.length → wire = [] → frame :: next = [] := by
      rintro hshort rfl
      have := congrArg length h
      simp at this
      omega
    by_cases hheader : buffer.length < 4
    · exact .inl ⟨if_pos hheader, hwait (by omega)⟩
    · obtain ⟨tail, rfl, htail⟩ := exists_rest h (by simpa using hheader)
      rw [decode_header (by omega) (by omega)]
      split
      case isTrue hshort => exact .inl ⟨rfl, hwait (by simp; omega)⟩
      case isFalse hlong =>
        obtain ⟨rest, rfl, hrest⟩ := exists_rest htail (by simp; omega)
        exact .inr ⟨frame, next, rest, rfl, by simp [Nat.add_comm 1], hrest⟩

/-- However the bytes of frames are cut into reads, and whenever the decoder is called in between,
it fails on none of them and yields the frames in order, and all of them in the end. -/
theorem frames_received (frames : List Sent) (events : List (Option ℕ)) :
    ∃ s, events.foldlM Reader.poll ⟨Sent.bytes frames, [], []⟩ = .ok s ∧
      s.yielded <+: frames.map Subtype.val ∧
        (s.yielded = frames.map Subtype.val ∨ s.wire ≠ [] ∨ decode s.buffer ≠ .ok none) := by
  let Awaits (s : Reader) (later : List Sent) : Prop :=
    s.yielded ++ later.map Subtype.val = frames.map Subtype.val ∧
      s.buffer ++ s.wire = Sent.bytes later
  have hrun (s : Reader) (later : List Sent) (h : Awaits s later) :
      ∃ t later', events.foldlM Reader.poll s = .ok t ∧ Awaits t later' := by
    induction events generalizing s later with
    | nil => exact ⟨s, later, rfl, h⟩
    | cons event events ih =>
      cases event with
      | some n => exact ih _ later ⟨h.1, (append_assoc ..).trans ((take_append_drop ..).symm ▸ h.2)⟩
      | none =>
        rw [foldlM_cons, Reader.poll]
        rcases decode_stream h.2 with ⟨hd, -⟩ | ⟨frame, next, rest, rfl, hd, hrest⟩
        · rw [hd]
          exact ih s later h
        · rw [hd]
          exact ih _ next ⟨by simpa using h.1, hrest⟩
  obtain ⟨s, later, hs, h⟩ := hrun ⟨Sent.bytes frames, [], []⟩ frames ⟨rfl, rfl⟩
  refine ⟨s, hs, ⟨_, h.1⟩, ?_⟩
  rcases decode_stream h.2 with ⟨-, hlast⟩ | ⟨frame, next, rest, -, hd, -⟩
  · by_cases hwire : s.wire = []
    · exact .inl (by simpa [hlast hwire] using h.1)
    · exact .inr (.inl hwire)
  · exact .inr (.inr (by simp [hd]))

end Temps.PtyAgent.Frames
