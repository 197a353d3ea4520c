import Temps.Lib.Broadcast
import Temps.Lib.Machine
import Temps.PtyAgent.Ring

namespace Temps.PtyAgent.Replay

open Lib.Broadcast Lib.Machine List Function

def ringBytes : ℕ := 64 * 1024

theorem ringBytes_pos : 0 < ringBytes := by
  rw [ringBytes]
  omega

def broadcastDepth : ℕ := 256

def readBytes : ℕ := 16 * 1024

abbrev Chunk : Type := List UInt8

def exitTag : UInt8 := 0xFE

def isExit (chunk : Chunk) : Bool := chunk.head? == some exitTag

/-- Where the pty reader is: about to read, between the ring push and the broadcast send of a chunk,
or past its loop and the exit event. -/
inductive Reader where
  | reading
  | sending (chunk : Chunk)
  | finished

def Reader.inFlight : Reader → Chunk
  | .sending chunk => chunk
  | _ => []

inductive Phase where
  | closed
  | opened
  | replaying (replay : Chunk)
  | subscribed (replay : Chunk) (next : ℕ)
  | forwarding (next : ℕ)
  | ended

/-- A client from its OPEN on: the payloads of its OP_OUTPUT frames, and whether it has lagged. The
output read by the pty reader when the client took the tail is recorded by its length. -/
structure Client where
  phase : Phase
  replayBytes : ℕ
  readAt : ℕ
  received : List UInt8
  lagged : Bool

def Client.new : Client := ⟨.closed, 0, 0, [], false⟩

/-- A tab with everything its child has written so far, and its clients. -/
structure Terminal where
  ring : Ring ringBytes
  output : List UInt8
  reader : Reader
  sent : List Chunk
  clients : ℕ → Client

inductive Act where
  | push (chunk : Chunk)
  | send
  | finish (event : Option Chunk)
  | openTab (client replayBytes : ℕ)
  | readTail (client : ℕ)
  | subscribe (client : ℕ)
  | writeReplay (client : ℕ)
  | forward (client : ℕ)
  | detach (client : ℕ)

namespace Terminal

def init : Terminal where
  ring := Ring.new ringBytes_pos
  output := []
  reader := .reading
  sent := []
  clients := fun _ ↦ .new

variable (s : Terminal)

def setClient (i : ℕ) (c : Client) : Terminal :=
  { s with clients := Function.update s.clients i c }

def replay (replayBytes : ℕ) : Chunk :=
  let replayN := min replayBytes ringBytes
  if 0 < replayN then s.ring.tail replayN else []

def broadcastForward (i next : ℕ) : Option Terminal :=
  let c := s.clients i
  match recv broadcastDepth s.sent next with
  | .pending => none
  | .lagged next' => some (s.setClient i { c with phase := .forwarding next', lagged := true })
  | .message chunk =>
    if isExit chunk then some (s.setClient i { c with phase := .ended })
    else
      some (s.setClient i
        { c with phase := .forwarding (next + 1), received := c.received ++ chunk })

def step : Act → Option Terminal
  | .push chunk =>
    match s.reader with
    | .reading =>
      if chunk ≠ [] ∧ chunk.length ≤ readBytes then
        some { s with
          ring := s.ring.push chunk
          output := s.output ++ chunk
          reader := .sending chunk }
      else none
    | _ => none
  | .send =>
    match s.reader with
    | .sending chunk => some { s with sent := s.sent ++ [chunk], reader := .reading }
    | _ => none
  | .finish event =>
    match s.reader with
    | .reading =>
      some { s with
        sent := s.sent ++ (event.map (exitTag :: ·)).toList
        reader := .finished }
    | _ => none
  | .openTab i replayBytes =>
    match (s.clients i).phase with
    | .closed => some (s.setClient i { s.clients i with phase := .opened, replayBytes := replayBytes })
    | _ => none
  | .readTail i =>
    let c := s.clients i
    match c.phase with
    | .opened =>
      some (s.setClient i
        { c with phase := .replaying (s.replay c.replayBytes), readAt := s.output.length })
    | _ => none
  | .subscribe i =>
    match (s.clients i).phase with
    | .replaying replay =>
      some (s.setClient i { s.clients i with phase := .subscribed replay s.sent.length })
    | _ => none
  | .writeReplay i =>
    let c := s.clients i
    match c.phase with
    | .subscribed replay next =>
      some (s.setClient i
        { c with phase := .forwarding next, received := c.received ++ replay })
    | _ => none
  | .forward i =>
    match (s.clients i).phase with
    | .forwarding next => s.broadcastForward i next
    | _ => none
  | .detach i =>
    match (s.clients i).phase with
    | .forwarding _ => some (s.setClient i { s.clients i with phase := .ended })
    | _ => none

end Terminal

inductive Move (s : Terminal) : Act → Terminal → Prop
  | push {chunk} (hreader : s.reader = .reading) :
    Move s (.push chunk)
      { s with
        ring := s.ring.push chunk
        output := s.output ++ chunk
        reader := .sending chunk }
  | send {chunk} (hreader : s.reader = .sending chunk) :
    Move s .send { s with sent := s.sent ++ [chunk], reader := .reading }
  | finish {event} (hreader : s.reader = .reading) :
    Move s (.finish event)
      { s with
        sent := s.sent ++ (event.map (exitTag :: ·)).toList
        reader := .finished }
  | openTab {i n} (hphase : (s.clients i).phase = .closed) :
    Move s (.openTab i n)
      (s.setClient i { s.clients i with phase := .opened, replayBytes := n })
  | readTail {i} (hphase : (s.clients i).phase = .opened) :
    Move s (.readTail i)
      (s.setClient i
        { s.clients i with
          phase := .replaying (s.replay (s.clients i).replayBytes)
          readAt := s.output.length })
  | subscribe {i replay} (hphase : (s.clients i).phase = .replaying replay) :
    Move s (.subscribe i)
      (s.setClient i { s.clients i with phase := .subscribed replay s.sent.length })
  | writeReplay {i replay next} (hphase : (s.clients i).phase = .subscribed replay next) :
    Move s (.writeReplay i)
      (s.setClient i
        { s.clients i with
          phase := .forwarding next
          received := (s.clients i).received ++ replay })
  | lag {i next next'} (hphase : (s.clients i).phase = .forwarding next)
      (hrecv : recv broadcastDepth s.sent next = .lagged next') :
    Move s (.forward i)
      (s.setClient i { s.clients i with phase := .forwarding next', lagged := true })
  | exit {i next chunk} (hphase : (s.clients i).phase = .forwarding next)
      (hrecv : s.sent[next]? = some chunk) (hexit : isExit chunk = true) :
    Move s (.forward i) (s.setClient i { s.clients i with phase := .ended })
  | forward {i next chunk} (hphase : (s.clients i).phase = .forwarding next)
      (hrecv : s.sent[next]? = some chunk) (hexit : isExit chunk = false) :
    Move s (.forward i)
      (s.setClient i
        { s.clients i with
          phase := .forwarding (next + 1)
          received := (s.clients i).received ++ chunk })
  | detach {i next} (hphase : (s.clients i).phase = .forwarding next) :
    Move s (.detach i) (s.setClient i { s.clients i with phase := .ended })

variable {s t : Terminal} {next : ℕ}

theorem broadcastForward_move {i : ℕ} (hphase : (s.clients i).phase = .forwarding next)
    (h : s.broadcastForward i next = some t) : Move s (.forward i) t := by
  revert h
  fun_cases Terminal.broadcastForward s i next <;> rintro ⟨⟩
  case case2 hrecv => exact .lag hphase hrecv
  case case3 hrecv hexit => exact .exit hphase (getElem?_of_recv hrecv) hexit
  case case4 hrecv hexit =>
    exact .forward hphase (getElem?_of_recv hrecv) (Bool.not_eq_true _ ▸ hexit)

theorem step_move {a : Act} (h : s.step a = some t) : Move s a t := by
  revert h
  fun_cases Terminal.step s a
  case case16 hphase => exact broadcastForward_move hphase
  all_goals rintro ⟨⟩
  case case1 hreader _ => exact .push hreader
  case case4 hreader => exact .send hreader
  case case6 hreader => exact .finish hreader
  case case8 hphase => exact .openTab hphase
  case case10 hphase => exact .readTail hphase
  case case12 hphase => exact .subscribe hphase
  case case14 hphase => exact .writeReplay hphase
  case case18 hphase => exact .detach hphase

/-- A client subscribes only when the output broadcast so far is the output that was in the ring
when it read the tail. -/
def Joins (s : Terminal) : Act → Prop
  | .subscribe i => s.output.length - s.reader.inFlight.length = (s.clients i).readAt
  | _ => True

instance (s : Terminal) (a : Act) : Decidable (Joins s a) := by
  cases a <;> dsimp only [Joins] <;> infer_instance

/-- The client does not lag, and the output up to its read of the tail fits in the ring and in the
replay it asks for. -/
structure Client.Covered (c : Client) : Prop where
  kept : c.lagged = false
  fits : c.readAt ≤ ringBytes
  asked : c.readAt ≤ c.replayBytes

/-- What holds of a client, for the output so far, the number of broadcast messages and the chunks
of output among them. -/
def Client.Sound (output : List UInt8) (sent : ℕ) (data : List Chunk) (c : Client) : Prop :=
  match c.phase with
  | .closed | .opened => c.received = []
  | .replaying replay =>
    c.received = [] ∧ c.readAt ≤ output.length ∧ (c.Covered → replay = output.take c.readAt)
  | .subscribed replay next =>
    c.received = [] ∧ next ≤ sent ∧ (c.Covered → replay = (data.take next).flatten)
  | .forwarding next => next ≤ sent ∧ (c.Covered → c.received = (data.take next).flatten)
  | .ended => c.Covered → c.received <+: output

/-- The ring and the channel carry the output: what is not in flight has been sent, in order, and
nothing follows an exit event. -/
structure Carries (s : Terminal) (data events : List Chunk) : Prop where
  ring : s.ring.content = s.output.rtake ringBytes
  sent : s.sent = data ++ events
  output : s.output = data.flatten ++ s.reader.inFlight
  exits : ∀ e ∈ events, isExit e = true
  last : s.reader ≠ .finished → events = []
  clients : ∀ i, (s.clients i).Sound s.output s.sent.length data

theorem Client.Sound.mono {c : Client} {output output' : List UInt8} {sent sent' : ℕ}
    {data data' : List Chunk} (h : c.Sound output sent data) (houtput : output <+: output')
    (hsent : sent ≤ sent') (hdata : ∀ next ≤ sent, data'.take next = data.take next) :
    c.Sound output' sent' data' := by
  rw [Client.Sound] at h ⊢
  split at h
  case h_1 | h_2 => exact h
  case h_3 replay _ =>
    obtain ⟨hnone, hat, hreplay⟩ := h
    refine ⟨hnone, hat.trans houtput.length_le, fun hc ↦ ?_⟩
    rw [hreplay hc]
    exact (prefix_iff_eq_take.mp (( take_prefix _ _).trans houtput)).trans
      (by rw [length_take, min_eq_left hat])
  case h_4 replay next _ =>
    obtain ⟨hnone, hnext, hreplay⟩ := h
    exact ⟨hnone, hnext.trans hsent, fun hc ↦ by rw [hreplay hc, hdata next hnext]⟩
  case h_5 next _ =>
    obtain ⟨hnext, hreceived⟩ := h
    exact ⟨hnext.trans hsent, fun hc ↦ by rw [hreceived hc, hdata next hnext]⟩
  case h_6 => exact fun hc ↦ (h hc).trans houtput

section Steps

variable {s t : Terminal} {data events : List Chunk} {i : ℕ} {c : Client}

section

variable (h : Carries s data events)
include h

namespace Carries

theorem setClient
    (hc : c.Sound s.output s.sent.length data) : Carries (s.setClient i c) data events :=
  { h with clients := (forall_update_iff s.clients _).mpr ⟨hc, fun j _ ↦ h.clients j⟩ }

theorem replay_eq {n : ℕ} (hfits : s.output.length ≤ ringBytes)
    (hasked : s.output.length ≤ n) : s.replay n = s.output := by
  have hcontent : s.ring.content = s.output := by rw [h.ring, rtake_of_length_le hfits]
  rw [Terminal.replay]
  split
  case isTrue =>
    rw [Ring.tail_eq, hcontent]
    exact rtake_of_length_le (le_min hasked hfits)
  case isFalse hn =>
    exact (length_eq_zero_iff.mp (by omega)).symm

theorem take_data : data.take s.sent.length = data :=
  take_of_length_le (by rw [h.sent, length_append]; omega)

theorem take_output :
    s.output.take (s.output.length - s.reader.inFlight.length) = data.flatten := by
  have hlen : s.output.length - s.reader.inFlight.length = data.flatten.length := by
    rw [h.output, length_append, Nat.add_sub_cancel]
  rw [hlen, h.output, take_left']
  rfl

theorem take_succ {chunk : Chunk}
    (hrecv : s.sent[next]? = some chunk) (hexit : isExit chunk = false) :
    (data.take (next + 1)).flatten = (data.take next).flatten ++ chunk := by
  rw [h.sent] at hrecv
  rcases lt_or_ge next data.length with hlt | hge
  · rw [List.getElem?_append_left hlt] at hrecv
    rw [take_add_one, hrecv, Option.toList_some, flatten_append, flatten_singleton]
  · rw [List.getElem?_append_right hge] at hrecv
    exact absurd (h.exits chunk (mem_of_getElem? hrecv)) (by simp [hexit])

theorem prefix_output (next : ℕ) : (data.take next).flatten <+: s.output := by
  have htake : (data.take next).flatten <+: data.flatten := by
    nth_rewrite 2 [← take_append_drop next data]
    rw [flatten_append]
    exact prefix_append _ _
  exact htake.trans (h.output ▸ prefix_append _ _)

theorem end_client (hphase : (s.clients i).phase = .forwarding next) :
    Carries (s.setClient i { s.clients i with phase := .ended }) data events := by
  have hc := h.clients i
  simp only [Client.Sound, hphase] at hc
  refine h.setClient fun hcov ↦ ?_
  rw [hc.2 { hcov with }]
  exact h.prefix_output next

theorem step {a : Act} (ha : Joins s a)
    (hstep : s.step a = some t) : ∃ data events, Carries t data events := by
  cases step_move hstep with
  | push hreader =>
    rename_i chunk
    refine ⟨data, events, { h with ring := ?_, output := ?_, last := ?_, clients := ?_ }⟩
    · exact s.ring.content_push_of_history h.ring chunk
    · simp [h.output, hreader, Reader.inFlight]
    · exact fun _ ↦ h.last (by simp [hreader])
    · exact fun i ↦ (h.clients i).mono (prefix_append _ _) le_rfl fun _ _ ↦ rfl
  | send hreader =>
    rename_i chunk
    obtain rfl := h.last (by simp [hreader])
    have hsent : s.sent = data := by simpa using h.sent
    refine ⟨data ++ [chunk], [], { h with sent := ?_, output := ?_, last := ?_, clients := ?_ }⟩
    · simp [hsent]
    · simp [h.output, hreader, Reader.inFlight]
    · exact fun _ ↦ rfl
    · intro i
      refine (h.clients i).mono prefix_rfl (by simp) fun next hnext ↦ ?_
      exact take_append_of_le_length (hsent ▸ hnext)
  | finish hreader =>
    rename_i event
    obtain rfl := h.last (by simp [hreader])
    refine ⟨data, (event.map (exitTag :: ·)).toList,
      { h with sent := ?_, output := ?_, exits := ?_, last := ?_, clients := ?_ }⟩
    · simp [h.sent]
    · simp [h.output, hreader, Reader.inFlight]
    · cases event <;> simp [isExit]
    · exact absurd rfl
    · exact fun i ↦ (h.clients i).mono prefix_rfl (by simp) fun _ _ ↦ rfl
  | openTab hphase =>
    rename_i i n
    have hc := h.clients i
    simp only [Client.Sound, hphase] at hc
    exact ⟨data, events, h.setClient hc⟩
  | readTail hphase =>
    rename_i i
    have hc := h.clients i
    simp only [Client.Sound, hphase] at hc
    refine ⟨data, events, h.setClient ⟨hc, le_rfl, fun hcov ↦ ?_⟩⟩
    exact (h.replay_eq hcov.fits hcov.asked).trans take_length.symm
  | subscribe hphase =>
    rename_i i replay
    have hc := h.clients i
    simp only [Client.Sound, hphase] at hc
    obtain ⟨hnone, -, hreplay⟩ := hc
    refine ⟨data, events, h.setClient ⟨hnone, le_rfl, fun hcov ↦ ?_⟩⟩
    rw [hreplay { hcov with }, h.take_data, ← h.take_output, ha]
  | writeReplay hphase =>
    rename_i i replay next
    have hc := h.clients i
    simp only [Client.Sound, hphase] at hc
    obtain ⟨hnone, hnext, hreplay⟩ := hc
    refine ⟨data, events, h.setClient ⟨hnext, fun hcov ↦ ?_⟩⟩
    rw [← hreplay { hcov with }, hnone, nil_append]
  | lag hphase hrecv =>
    refine ⟨data, events, h.setClient ⟨le_of_recv_lagged hrecv, fun hcov ↦ ?_⟩⟩
    exact nomatch hcov.kept
  | exit hphase | detach hphase => exact ⟨data, events, h.end_client hphase⟩
  | forward hphase hrecv hexit =>
    rename_i i next chunk
    have hc := h.clients i
    simp only [Client.Sound, hphase] at hc
    refine ⟨data, events, h.setClient ⟨?_, fun hcov ↦ ?_⟩⟩
    · exact (List.getElem?_eq_some_iff.mp hrecv).1
    · rw [h.take_succ hrecv hexit, ← hc.2 { hcov with }]

end Carries

end

theorem carries_init : Carries .init [] [] where
  ring := rfl
  sent := rfl
  output := rfl
  exits := by simp
  last := fun _ ↦ rfl
  clients := fun _ ↦ rfl

theorem reaches_carries (h : Reaches Terminal.step Joins .init s) :
    ∃ data events, Carries s data events := by
  refine h.invariant (I := fun s ↦ ∃ data events, Carries s data events) ?_ ⟨[], [], carries_init⟩
  rintro s t a ⟨data, events, hs⟩ ha hstep
  exact hs.step ha hstep

/-- What a covered client receives is a prefix of the output, in every run in which the clients
subscribe between the same chunks as they read the tail. -/
theorem received_prefix (h : Reaches Terminal.step Joins .init s) (hcov : (s.clients i).Covered) :
    (s.clients i).received <+: s.output := by
  obtain ⟨data, events, hs⟩ := reaches_carries h
  have hc := hs.clients i
  rw [Client.Sound] at hc
  split at hc
  case h_1 | h_2 => exact hc ▸ nil_prefix
  case h_3 | h_4 => exact hc.1 ▸ nil_prefix
  case h_5 next _ => exact hc.2 hcov ▸ hs.prefix_output next
  case h_6 => exact hc hcov

end Steps

theorem replay_of_push_init (chunk : Chunk) {n : ℕ}
    (hring : s.ring = Terminal.init.ring.push chunk) (hfits : chunk.length ≤ ringBytes)
    (hn : chunk.length ≤ n) (hpos : 0 < n) : s.replay n = chunk := by
  have := ringBytes_pos
  rw [Terminal.replay, if_pos (by omega), hring, Ring.tail_eq, Ring.content_push,
    carries_init.ring, rtake_rtake_append, Terminal.init, nil_append, rtake_of_length_le hfits,
      rtake_of_length_le (le_min hn hfits)]

theorem received_prefix_attached :
    ∃ s, Reaches Terminal.step Joins .init s ∧ (s.clients 0).received = [104, 105] ∧
      (s.clients 0).received <+: s.output := by
  have hrun : Reaches Terminal.step Joins .init _ :=
    reaches_exec (fun _ _ h ↦ of_decide_eq_true h) <|
      show exec Terminal.step (fun s a ↦ decide (Joins s a)) .init
        [.push [104], .send, .openTab 0 1024, .readTail 0, .subscribe 0, .writeReplay 0,
          .push [105], .send, .forward 0] = some _ from rfl
  refine ⟨_, hrun, ?_, received_prefix hrun ⟨rfl, ?_, ?_⟩⟩
  · change [] ++ Terminal.replay _ 1024 ++ [105] = _
    rw [replay_of_push_init [104]]
    case hring => simp only [Terminal.setClient]
    all_goals simp [ringBytes]
  · change 1 ≤ ringBytes
    simp [ringBytes]
  · change 1 ≤ 1024
    simp

/-- A chunk that is pushed before a client reads the tail and sent after it subscribes is received
twice. -/
theorem chunk_in_flight_is_doubled :
    ∃ s, Reaches Terminal.step anything .init s ∧ (s.clients 0).Covered ∧
      ¬ (s.clients 0).received <+: s.output := by
  have hrun : Reaches Terminal.step anything .init _ :=
    Reaches.refl.run [.push [104], .openTab 0 1024, .readTail 0, .subscribe 0, .send,
      .writeReplay 0, .forward 0] (fun _ _ _ ↦ trivial) rfl
  refine ⟨_, hrun, ⟨rfl, ?_, ?_⟩, ?_⟩
  · change 1 ≤ ringBytes
    simp [ringBytes]
  · change 1 ≤ 1024
    simp
  · change ¬ [] ++ Terminal.replay _ 1024 ++ [104] <+: [104]
    rw [replay_of_push_init [104]]
    case hring => simp only [Terminal.setClient]
    all_goals simp [ringBytes]

end Temps.PtyAgent.Replay
