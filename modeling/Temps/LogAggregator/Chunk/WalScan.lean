import Temps.Lib.Greedy
import Temps.LogAggregator.Chunk.Wal

namespace Temps.LogAggregator.Chunk.Wal

open Lib.Fallible Lib.Fields Lib.Greedy Lib.Octets Storage.Keys List Option
open LogAggregator.Types

variable {J : Type} {codec : RecordCodec J}

/-- A record whose payload stands in the file, with its line unless it is damaged. -/
structure Item (J : Type) where
  offset : ℕ
  len : ℕ
  line : Option (LogLine J)

def headerAt (bytes : Bytes) (pos : ℕ) : RecordHeader :=
  ⟨ofLe (bytes.take 4), ofLe ((bytes.drop 4).take 4), pos⟩

def lineOf (codec : RecordCodec J) (header : RecordHeader) (payload : Bytes) :
    Option (LogLine J) :=
  if codec.crc32 payload ≠ header.crc then none
  else
    match codec.fromSlice payload with
    | .ok line => some line
    | .error _ => none

/-- What a file holds behind a header: its records up to the first damaged one, and the byte where
reading stops. -/
def scanPayload (codec : RecordCodec J) (scanRest : Bytes → ℕ → List (Item J) × ℕ)
    (header : RecordHeader) (reader : Bytes) : List (Item J) × ℕ :=
  if maxRecordBytes < header.len ∨ reader.length < header.len then
    ([], header.offset + recordHeaderLen)
  else
    match lineOf codec header (reader.take header.len) with
    | some line =>
      let rest := scanRest (reader.drop header.len) (header.offset + recordHeaderLen + header.len)
      (⟨header.offset, header.len, some line⟩ :: rest.1, rest.2)
    | none =>
      if header.len = 0 then ([], header.offset + recordHeaderLen)
      else
        ([⟨header.offset, header.len, none⟩], header.offset + recordHeaderLen + header.len)

def scan (codec : RecordCodec J) : ℕ → Bytes → ℕ → List (Item J) × ℕ
  | 0, _, pos => ([], pos)
  | fuel + 1, bytes, pos =>
    if bytes.length < recordHeaderLen then ([], pos)
    else
      scanPayload codec (scan codec fuel) (headerAt bytes pos) (bytes.drop recordHeaderLen)

def scanFile (codec : RecordCodec J) (bytes : Bytes) (pos : ℕ) : List (Item J) × ℕ :=
  scan codec bytes.length bytes pos

variable {current next last : RecoveryFile} {final : ℕ} {items : List (Item J)}
  {header : RecordHeader} {f : Bytes → ℕ → List (Item J) × ℕ} {reader : Bytes} {batch : Batch J}
  {item : Item J} {line : LogLine J}

theorem scanPayload_congr {g : Bytes → ℕ → List (Item J) × ℕ}
    (h : ∀ pos, f (reader.drop header.len) pos = g (reader.drop header.len) pos) :
    scanPayload codec f header reader = scanPayload codec g header reader := by
  simp only [scanPayload, h]

theorem scan_succ (fuel : ℕ) (bytes : Bytes) (pos : ℕ) (h : bytes.length ≤ fuel) :
    scan codec (fuel + 1) bytes pos = scan codec fuel bytes pos := by
  induction fuel generalizing bytes pos with
  | zero => exact if_pos (h.trans_lt (by decide))
  | succ fuel ih =>
    rw [scan, scan]
    split
    · rfl
    · refine scanPayload_congr fun pos ↦ ih _ pos ?_
      simp only [length_drop, recordHeaderLen]
      omega

theorem scan_fuel {fuel : ℕ} {bytes : Bytes} (pos : ℕ) (h : bytes.length ≤ fuel) :
    scan codec fuel bytes pos = scanFile codec bytes pos := by
  induction fuel, h using Nat.le_induction with
  | base => rfl
  | succ fuel h ih => rw [scan_succ fuel bytes pos h, ih]

theorem scanFile_eq (bytes : Bytes) (pos : ℕ) :
    scanFile codec bytes pos =
      if bytes.length < recordHeaderLen then ([], pos)
      else
        scanPayload codec (scanFile codec) (headerAt bytes pos) (bytes.drop recordHeaderLen) := by
  rw [scanFile, ← scan_succ _ _ _ le_rfl, scan]
  split
  · rfl
  · exact scanPayload_congr fun pos ↦ scan_fuel pos (by simp only [length_drop]; omega)

def remaining (codec : RecordCodec J) (current : RecoveryFile) : List (Item J) × ℕ :=
  match current.pendingHeader with
  | some header => scanPayload codec (scanFile codec) header current.reader
  | none => scanFile codec current.reader current.offset

structure Live (current : RecoveryFile) : Prop where
  batchable : current.batchable = true
  pending : ∀ header ∈ current.pendingHeader, current.offset = header.offset + recordHeaderLen

def Same (current next : RecoveryFile) : Prop :=
  next.name = current.name ∧ next.withBloom = current.withBloom ∧
    next.batchable = current.batchable

def exceeds (batchBytes load : ℕ) (item : Item J) : Bool := batchBytes < saturatingAdd load item.len

def payloadScale : Scale (Item J) ℕ where
  start item := saturatingAdd 0 item.len
  add load item := saturatingAdd load item.len

inductive Header (codec : RecordCodec J) (current : RecoveryFile) : Prop
  | missing (next : RecoveryFile) (taken : takeHeader current = (none, next))
      (rest : remaining codec current = ([], next.offset)) (same : Same current next)
  | taken (header : RecordHeader) (next : RecoveryFile)
      (taken : takeHeader current = (some header, next))
      (rest : remaining codec current =
        scanPayload codec (scanFile codec) header next.reader)
      (offset : next.offset = header.offset + recordHeaderLen)
      (pending : next.pendingHeader = none) (same : Same current next)
      (shorter : next.reader.length + recordHeaderLen ≤ current.reader.length ∨
        current.pendingHeader ≠ none ∧ next.reader.length ≤ current.reader.length)

theorem lineOf_nil (codec : RecordCodec J) (header : RecordHeader) :
    lineOf codec header [] = none := by
  fun_cases lineOf codec header []
  case case2 _ line hline => exact absurd hline (codec.nil_error line)
  all_goals rfl

theorem len_pos_of_lineOf (h : lineOf codec header (reader.take header.len) = some line) :
    0 < header.len := by
  refine Nat.pos_of_ne_zero fun hzero ↦ ?_
  rw [hzero, take_zero, lineOf_nil] at h
  cases h

def Batch.add (batch : Batch J) (item : Item J) (line : LogLine J) : Batch J :=
  ⟨batch.lines ++ [line], saturatingAdd batch.payloadBytes item.len,
    some (batch.start.getD item.offset)⟩

def Capped (batchBytes : ℕ) (batch : Batch J) (item : Item J) : Prop :=
  batch.lines ≠ [] ∧ exceeds batchBytes batch.payloadBytes item = true

inductive Turned (codec : RecordCodec J) (batchBytes : ℕ) (current : RecoveryFile)
    (batch : Batch J) (final : ℕ) : List (Item J) → Turn J → Prop
  | ended (next : RecoveryFile) (batch' : Batch J) (reachedEnd : Bool)
      (lines : batch'.lines = batch.lines) (start : batch.start ≠ none → batch'.start = batch.start)
      (offset : next.offset = final) (first : batch.lines = [] → reachedEnd = true)
      (same : Same current next)
      (rest : reachedEnd = false → Live next ∧ remaining codec next = ([], final) ∧
        next.reader.length ≤ current.reader.length) :
      Turned codec batchBytes current batch final [] (.stop next batch' reachedEnd)
  | capped (item : Item J) (items : List (Item J)) (next : RecoveryFile)
      (full : Capped batchBytes batch item) (offset : next.offset = item.offset + recordHeaderLen)
      (live : Live next) (same : Same current next)
      (rest : remaining codec next = (item :: items, final))
      (shorter : next.reader.length ≤ current.reader.length) :
      Turned codec batchBytes current batch final (item :: items) (.stop next batch false)
  | damaged (item : Item J) (next : RecoveryFile) (batch' : Batch J)
      (room : ¬ Capped batchBytes batch item) (line : item.line = none)
      (lines : batch'.lines = batch.lines) (start : batch.start ≠ none → batch'.start = batch.start)
      (offset : next.offset = final) (same : Same current next) :
      Turned codec batchBytes current batch final [item] (.stop next batch' true)
  | read (item : Item J) (items : List (Item J)) (line : LogLine J) (next : RecoveryFile)
      (room : ¬ Capped batchBytes batch item) (hline : item.line = some line) (live : Live next)
      (same : Same current next) (rest : remaining codec next = (items, final))
      (shorter : next.reader.length < current.reader.length) :
      Turned codec batchBytes current batch final (item :: items)
        (.next next (batch.add item line))

theorem Same.trans (h : Same next last) (h' : Same current next) : Same current last :=
  ⟨h.1.trans h'.1, h.2.1.trans h'.2.1, h.2.2.trans h'.2.2⟩

theorem Same.live (h : Live current) (hs : Same current next)
    (hp : next.pendingHeader = none) : Live next := by
  refine ⟨hs.2.2.trans h.batchable, ?_⟩
  rw [hp]
  intro header hheader
  cases hheader

def RecoveryFile.skip (current : RecoveryFile) (len : ℕ) : RecoveryFile :=
  { current with
    reader := current.reader.drop len
    offset := current.offset + len }

theorem readPayload_some (hlen : ¬ current.reader.length < header.len)
    (hline : lineOf codec header (current.reader.take header.len) = some line) :
    readPayload codec current batch header =
      .next { current.skip header.len with records := current.records + 1 }
        (batch.add ⟨header.offset, header.len, some line⟩ line) := by
  revert hline
  fun_cases lineOf <;> rintro ⟨⟩
  case case2 hcrc hslice =>
    simp only [readPayload, if_neg hlen, if_neg hcrc, hslice]
    rfl

theorem readPayload_none (batch : Batch J) (hlen : ¬ current.reader.length < header.len)
    (hline : lineOf codec header (current.reader.take header.len) = none) :
    ∃ reason, readPayload codec current batch header =
      .stop { current.skip header.len with unreadable := some reason }
        { batch with start := some (batch.start.getD header.offset) } true := by
  revert hline
  fun_cases lineOf <;> rintro ⟨⟩
  case case1 hcrc =>
    refine ⟨failsChecksum header, ?_⟩
    simp only [readPayload, if_neg hlen, if_pos hcrc]
    rfl
  case case3 hcrc error hslice =>
    refine ⟨notALogLine header error, ?_⟩
    simp only [readPayload, if_neg hlen, if_neg hcrc, hslice]
    rfl

theorem scanPayload_nil (h : scanPayload codec f header reader = ([], final)) :
    final = header.offset + recordHeaderLen := by
  revert h
  fun_cases scanPayload <;> rintro ⟨⟩ <;> rfl

theorem scanPayload_cons (h : scanPayload codec f header reader = (item :: items, final)) :
    item.offset = header.offset ∧ item.len = header.len := by
  revert h
  fun_cases scanPayload <;> rintro ⟨⟩ <;> exact ⟨rfl, rfl⟩

theorem getD_start {offset : ℕ} (h : batch.start ≠ none) :
    some (batch.start.getD offset) = batch.start := by
  obtain ⟨start, hstart⟩ := ne_none_iff_exists'.mp h
  rw [hstart, getD_some]

/-- The byte where a batch ends when `rest` is left: the header of the next record was read. -/
def stopAt (rest : List (Item J)) (final : ℕ) : ℕ :=
  match rest with
  | [] => final
  | item :: _ => item.offset + recordHeaderLen

def validLines (items : List (Item J)) : List (LogLine J) := items.filterMap (·.line)

structure Stopped (codec : RecordCodec J) (current : RecoveryFile) (rest : List (Item J))
    (final : ℕ) (next : RecoveryFile) (reachedEnd : Bool) : Prop where
  offset : next.offset = stopAt rest final
  same : Same current next
  ended : reachedEnd = true → rest = []
  going : reachedEnd = false → Live next ∧ remaining codec next = (rest, final) ∧
    next.reader.length ≤ current.reader.length

theorem Stopped.since {rest : List (Item J)} {reachedEnd : Bool}
    (h : Stopped codec next rest final last reachedEnd) (same : Same current next)
    (shorter : next.reader.length < current.reader.length) :
    Stopped codec current rest final last reachedEnd ∧
      (reachedEnd = false → last.reader.length < current.reader.length) := by
  refine ⟨⟨h.offset, h.same.trans same, h.ended, ?_⟩, ?_⟩
  all_goals
    intro hfalse
    obtain ⟨hlive, hrest, hle⟩ := h.going hfalse
  · exact ⟨hlive, hrest, by omega⟩
  · omega

/-- The stream of one batch: its lines, its byte range and where the reader goes on. -/
structure Drawn (codec : RecordCodec J) (current : RecoveryFile) (batch rest : List (Item J))
    (final : ℕ) (stream : RecoveredStream J) (next : Option RecoveryFile) : Prop where
  name : stream.name = current.name
  withBloom : stream.withBloom = current.withBloom
  lines : stream.lines = validLines batch
  identity : ∀ item ∈ batch.head?, stream.recoveryIdentity =
    some (recoveryIdentity current.name item.offset (stopAt rest final))
  ended : next = none → rest = []
  going : ∀ file ∈ next, Live file ∧ Same current file ∧ remaining codec file = (rest, final) ∧
    file.reader.length < current.reader.length

/-- A stream that holds the lines of the batch `item :: items`, named by their byte range. -/
structure Holds (name : Text) (withBloom : Bool) (final : ℕ) (item : Item J)
    (items : List (Item J)) (back : List (List (Item J))) (stream : RecoveredStream J) : Prop where
  withBloom : stream.withBloom = withBloom
  lines : stream.lines = validLines (item :: items)
  identity : stream.recoveryIdentity =
    some (recoveryIdentity name item.offset (stopAt back.flatten final))

/-- The streams of a pass, batch by batch; a damaged record alone yields none. -/
inductive Yields (name : Text) (withBloom : Bool) (final : ℕ) :
    List (RecoveredStream J) → List (List (Item J)) → Prop
  | nil : Yields name withBloom final [] []
  | damaged (item : Item J) (line : item.line = none) : Yields name withBloom final [] [[item]]
  | cons (stream : RecoveredStream J) (streams : List (RecoveredStream J)) (item : Item J)
      (items : List (Item J)) (back : List (List (Item J))) (line : item.line ≠ none)
      (holds : Holds name withBloom final item items back stream)
      (rest : Yields name withBloom final streams back) :
      Yields name withBloom final (stream :: streams) ((item :: items) :: back)

structure Ordered (items : List (Item J)) (final : ℕ) : Prop where
  increasing : items.Pairwise fun a b ↦ a.offset + recordHeaderLen + a.len ≤ b.offset
  nonempty : ∀ item ∈ items, 0 < item.len
  final : ∀ item ∈ items, item.offset + recordHeaderLen + item.len ≤ final

variable (codec)

theorem scanFile_ordered (bytes : Bytes) (pos : ℕ) :
    Ordered (scanFile codec bytes pos).1 (scanFile codec bytes pos).2 ∧
      (∀ item ∈ (scanFile codec bytes pos).1, pos ≤ item.offset) ∧
      pos ≤ (scanFile codec bytes pos).2 := by
  induction hn : bytes.length using Nat.strong_induction_on generalizing bytes pos with
  | _ n ih =>
    have hnil : ∀ final, pos ≤ final → Ordered ([] : List (Item J)) final ∧
        (∀ item ∈ ([] : List (Item J)), pos ≤ item.offset) ∧ pos ≤ final :=
      fun final hle ↦ ⟨⟨.nil, by simp, by simp⟩, by simp, hle⟩
    rw [scanFile_eq]
    by_cases hshort : bytes.length < recordHeaderLen
    · rw [if_pos hshort]
      exact hnil pos le_rfl
    rw [if_neg hshort, scanPayload]
    split
    · exact hnil _ (Nat.le_add_right _ _)
    split
    · rename_i line hline
      have hlt : ((bytes.drop recordHeaderLen).drop (headerAt bytes pos).len).length < n := by
        simp only [length_drop, recordHeaderLen] at hshort ⊢
        omega
      obtain ⟨hordered, hlow, hle⟩ := ih _ hlt ((bytes.drop recordHeaderLen).drop
        (headerAt bytes pos).len) (pos + recordHeaderLen + (headerAt bytes pos).len) rfl
      refine ⟨⟨pairwise_cons.mpr ⟨hlow, hordered.increasing⟩,
        forall_mem_cons.mpr ⟨len_pos_of_lineOf hline, hordered.nonempty⟩,
        forall_mem_cons.mpr ⟨hle, hordered.final⟩⟩, forall_mem_cons.mpr ⟨le_rfl, ?_⟩, ?_⟩
      · intro item hitem
        have := hlow item hitem
        omega
      · exact le_trans (by omega) hle
    split
    · exact hnil _ (Nat.le_add_right _ _)
    · rename_i hzero
      refine ⟨⟨pairwise_singleton _ _, ?_, ?_⟩, ?_, ?_⟩
      · simpa using Nat.pos_of_ne_zero hzero
      · simp
      · simp [headerAt]
      · simp [headerAt, Nat.add_assoc]

section

variable (root : String) (batchBytes : ℕ) (h : Live current)
include h

theorem header_cases : Header codec current := by
  cases hp : current.pendingHeader with
  | some header =>
    refine .taken header { current with pendingHeader := none } ?_ ?_ ?_ rfl ⟨rfl, rfl, rfl⟩ ?_
    · rw [takeHeader, hp]
    · rw [remaining, hp]
    · exact h.pending header hp
    · exact Or.inr ⟨by simp [hp], le_rfl⟩
  | none =>
    by_cases hshort : current.reader.length < recordHeaderLen
    · refine .missing { current with reader := [] } ?_ ?_ ⟨rfl, rfl, rfl⟩
      · simp only [takeHeader, hp, readRecordHeader, if_pos hshort]
      · rw [remaining, hp, scanFile_eq, if_pos hshort]
    · refine .taken (headerAt current.reader current.offset)
        { current with
          reader := current.reader.drop recordHeaderLen
          offset := current.offset + recordHeaderLen } ?_ ?_ rfl hp ⟨rfl, rfl, rfl⟩ ?_
      · simp only [takeHeader, hp, readRecordHeader, if_neg hshort, headerAt]
      · rw [remaining, hp, scanFile_eq, if_neg hshort]
      · left
        simp only [length_drop]
        omega

theorem turned (batch : Batch J) :
    Turned codec batchBytes current batch (remaining codec current).2 (remaining codec current).1
      (readTurn codec batchBytes current batch) := by
  cases header_cases codec h with
  | missing next taken rest same =>
    rw [rest, readTurn, taken]
    exact .ended next batch true rfl (fun _ ↦ rfl) rfl (fun _ ↦ rfl) same
      nofun
  | taken header next taken rest offset pending same shorter =>
    have hbatchable : next.batchable := same.2.2.trans h.batchable
    have hle : next.reader.length ≤ current.reader.length := by
      rcases shorter with hlt | ⟨-, hle⟩
      · omega
      · exact hle
    rw [rest, readTurn, taken]
    by_cases hmax : maxRecordBytes < header.len
    · rw [scanPayload, if_pos (Or.inl hmax)]
      simp only [if_pos hmax]
      exact .ended _ batch true rfl (fun _ ↦ rfl) offset (fun _ ↦ rfl) same
        nofun
    simp only [if_neg hmax]
    by_cases hcap : (next.batchable && !batch.lines.isEmpty &&
        decide (batchBytes < saturatingAdd batch.payloadBytes header.len))
    · simp only [if_pos hcap]
      simp only [hbatchable, Bool.and_eq_true] at hcap
      have hne : batch.lines ≠ [] := by simpa using hcap.1
      have hlive : Live { next with pendingHeader := some header } := by
        refine ⟨hbatchable, ?_⟩
        rintro _ ⟨⟩
        exact offset
      cases hscan : scanPayload codec (scanFile codec) header next.reader with
      | mk items final =>
        cases items with
        | nil =>
          have hfinal := scanPayload_nil hscan
          refine .ended _ batch false rfl (fun _ ↦ rfl) (offset.trans hfinal.symm)
            (fun hnil ↦ absurd hnil hne) same (fun _ ↦ ⟨hlive, hscan, hle⟩)
        | cons item items =>
          obtain ⟨hoffset, hlen⟩ := scanPayload_cons hscan
          refine .capped item items _ ⟨hne, ?_⟩ ?_ hlive same hscan hle
          · simpa [exceeds, hlen] using hcap.2
          · rw [hoffset]
            exact offset
    · simp only [if_neg hcap]
      have hroom : ∀ item : Item J, item.len = header.len → ¬ Capped batchBytes batch item := by
        rintro item hlen ⟨hne, hover⟩
        apply hcap
        simpa [hbatchable, hne, exceeds, hlen] using hover
      by_cases hlen : next.reader.length < header.len
      · rw [scanPayload, if_pos (Or.inr hlen)]
        simp only [readPayload, if_pos hlen]
        exact .ended _ _ true rfl getD_start offset (fun _ ↦ rfl) same
          nofun
      have hscan : ¬ (maxRecordBytes < header.len ∨ next.reader.length < header.len) := by tauto
      cases hline : lineOf codec header (next.reader.take header.len) with
      | none =>
        obtain ⟨reason, hread⟩ := readPayload_none batch hlen hline
        rw [hread, scanPayload, if_neg hscan, hline]
        have hoff : next.offset + header.len = header.offset + recordHeaderLen + header.len := by
          rw [offset]
        by_cases hzero : header.len = 0
        · simp only [if_pos hzero]
          refine .ended _ _ true rfl getD_start ?_ (fun _ ↦ rfl) same
            nofun
          rw [hzero] at hoff
          rw [hzero]
          exact hoff
        · simp only [if_neg hzero]
          exact .damaged _ _ _ (hroom _ rfl) rfl rfl getD_start hoff same
      | some line =>
        rw [readPayload_some hlen hline, scanPayload, if_neg hscan, hline]
        refine .read ⟨header.offset, header.len, some line⟩ _ line _ (hroom _ rfl) rfl ?_ same ?_ ?_
        · exact Same.live h same pending
        · simp only [remaining, RecoveryFile.skip, pending, offset]
        · have hpos := len_pos_of_lineOf hline
          simp only [RecoveryFile.skip, length_drop]
          omega

theorem eq_nil_of_damaged (hrem : remaining codec current = (item :: items, final))
    (hline : item.line = none) : items = [] := by
  have hturn := turned codec 0 h (Batch.empty : Batch J)
  rw [hrem] at hturn
  generalize readTurn codec 0 current Batch.empty = turn at hturn
  cases hturn with
  | capped _ _ next full => exact absurd rfl full.1
  | damaged => rfl
  | read _ _ line next room hsome =>
    rw [hline] at hsome
    cases hsome

theorem readLoop_spec (fuel : ℕ) (hfuel : current.reader.length < fuel) (hlines : batch.lines ≠ [])
    (hstart : batch.start ≠ none) :
    ∃ next batch' reachedEnd, readLoop codec batchBytes fuel current batch =
        (next, batch', reachedEnd) ∧
      batch'.lines = batch.lines ++ validLines (payloadScale.fill (exceeds batchBytes)
        batch.payloadBytes (remaining codec current).1).1 ∧
      batch'.start = batch.start ∧
      Stopped codec current (payloadScale.fill (exceeds batchBytes)
        batch.payloadBytes (remaining codec current).1).2 (remaining codec current).2 next
        reachedEnd := by
  induction fuel generalizing current batch with
  | zero => omega
  | succ fuel ih =>
    have hturn := turned codec batchBytes h batch
    rw [readLoop]
    generalize readTurn codec batchBytes current batch = turn at hturn
    generalize (remaining codec current).2 = final at hturn
    generalize (remaining codec current).1 = items at hturn
    cases hturn with
    | ended next batch' reachedEnd lines start offset first same rest =>
      refine ⟨next, batch', reachedEnd, rfl, ?_, start hstart, offset, same, fun _ ↦ rfl, rest⟩
      rw [lines]
      simp [Scale.fill, validLines]
    | capped item items next full offset live same rest shorter =>
      have hfill : payloadScale.fill (exceeds batchBytes) batch.payloadBytes (item :: items) =
          ([], item :: items) := by
        rw [Scale.fill, if_pos full.2]
      rw [hfill]
      refine ⟨next, batch, false, rfl, ?_, rfl, offset, same, ?_, fun _ ↦ ⟨live, rest, shorter⟩⟩
      · simp [validLines]
      · intro htrue
        cases htrue
    | damaged item next batch' room line lines start offset same =>
      have hover : ¬ exceeds batchBytes batch.payloadBytes item := fun hover ↦ room ⟨hlines, hover⟩
      have hfill : payloadScale.fill (exceeds batchBytes) batch.payloadBytes [item] =
          ([item], []) := by
        rw [Scale.fill, if_neg hover, Scale.fill]
      rw [hfill]
      refine ⟨next, batch', true, rfl, ?_, start hstart, offset, same, fun _ ↦ rfl, ?_⟩
      · simp [validLines, line, lines]
      · intro hfalse
        cases hfalse
    | read item items line next room hline live same rest shorter =>
      have hover : ¬ exceeds batchBytes batch.payloadBytes item := fun hover ↦ room ⟨hlines, hover⟩
      have hadd : (batch.add item line).lines ≠ [] := by simp [Batch.add]
      obtain ⟨last, batch', reachedEnd, hloop, hlast, hfirst, hstop⟩ :=
        ih live (by omega) hadd (some_ne_none _)
      rw [rest] at hlast hstop
      rw [Scale.fill, if_neg hover]
      refine ⟨last, batch', reachedEnd, hloop, ?_, ?_, (hstop.since same shorter).1⟩
      · rw [hlast]
        simp [Batch.add, validLines, hline, payloadScale]
      · rw [hfirst, Batch.add, getD_start hstart]

theorem fileStep_finished (hhead : ∀ item ∈ (remaining codec current).1.head?, item.line = none) :
    ∃ generation, fileStep codec root batchBytes current = .ok (.finished generation) := by
  have hturn := turned codec batchBytes h (Batch.empty : Batch J)
  have hloop : ∃ next batch, readBatch codec batchBytes current = (next, batch, true) ∧
      batch.lines = [] := by
    rw [readBatch, readLoop]
    generalize readTurn codec batchBytes current Batch.empty = turn at hturn
    generalize (remaining codec current).2 = final at hturn
    generalize (remaining codec current).1 = items at hturn hhead
    cases hturn with
    | ended next batch' reachedEnd lines start offset first same rest =>
      obtain rfl := first rfl
      exact ⟨next, batch', rfl, lines⟩
    | capped item items next full => exact absurd rfl full.1
    | damaged item next batch' room line lines => exact ⟨next, batch', rfl, lines⟩
    | read item items line next room hline =>
      have hnone := hhead item rfl
      rw [hline] at hnone
      cases hnone
  obtain ⟨next, batch, hread, hlines⟩ := hloop
  rw [fileStep, hread]
  simp only [hlines]
  exact ⟨_, rfl⟩

theorem fileStep_stream (hrem : remaining codec current = (item :: items, final))
    (hline : item.line = some line) :
    ∃ stream next, fileStep codec root batchBytes current = .ok (.stream stream next) ∧
      Drawn codec current
        (item :: (payloadScale.fill (exceeds batchBytes) (payloadScale.start item) items).1)
        (payloadScale.fill (exceeds batchBytes) (payloadScale.start item) items).2 final stream
        next := by
  have hturn := turned codec batchBytes h (Batch.empty : Batch J)
  rw [hrem] at hturn
  have hloop : ∃ last batch reachedEnd, readBatch codec batchBytes current =
        (last, batch, reachedEnd) ∧
      batch.lines = line :: validLines (payloadScale.fill (exceeds batchBytes)
        (payloadScale.start item) items).1 ∧ batch.start = some item.offset ∧
      Stopped codec current (payloadScale.fill (exceeds batchBytes) (payloadScale.start item) items).2
        final last reachedEnd ∧ (reachedEnd = false → last.reader.length < current.reader.length) := by
    rw [readBatch, readLoop]
    generalize readTurn codec batchBytes current Batch.empty = turn at hturn
    cases hturn with
    | capped _ _ next full => exact absurd rfl full.1
    | damaged _ next batch' room hnone =>
      rw [hline] at hnone
      cases hnone
    | read _ _ line' next room hline' live same rest shorter =>
      rw [hline] at hline'
      obtain rfl := some.inj hline'
      have hone : (Batch.empty.add item line).lines ≠ [] := cons_ne_nil _ _
      have hoffset : (Batch.empty.add item line).start ≠ none := some_ne_none _
      obtain ⟨last, batch, reachedEnd, hloop, hlines, hstart, hstop⟩ :=
        readLoop_spec codec batchBytes live (current.reader.length + 1) (by omega) hone hoffset
      rw [rest] at hlines hstop
      exact ⟨last, batch, reachedEnd, hloop, hlines, hstart, hstop.since same shorter⟩
  obtain ⟨last, batch, reachedEnd, hread, hlines, hstart, hstop, hlt⟩ := hloop
  have hbatchable : last.batchable := hstop.same.2.2.trans h.batchable
  rw [fileStep, hread]
  simp only [hlines, hbatchable, hstart]
  refine ⟨_, _, rfl, hstop.same.1, hstop.same.2.1, ?_, ?_, ?_, ?_⟩
  · simp only [validLines, filterMap_cons, hline]
  · rintro _ ⟨⟩
    rw [hstop.same.1, hstop.offset]
  · intro hnone
    cases reachedEnd with
    | true => exact hstop.ended rfl
    | false => cases hnone
  · intro file hfile
    cases reachedEnd with
    | true => cases hfile
    | false =>
      obtain rfl := some.inj hfile
      obtain ⟨hlive, hrest, _⟩ := hstop.going rfl
      exact ⟨hlive, hstop.same, hrest, hlt rfl⟩

theorem streams_yields (fuel : ℕ) (hfuel : current.reader.length < fuel) :
    ∃ ss, streams codec root batchBytes fuel current = .ok ss ∧
      Yields current.name current.withBloom (remaining codec current).2 ss
        (payloadScale.segments (exceeds batchBytes) (remaining codec current).1) := by
  induction fuel generalizing current with
  | zero => omega
  | succ fuel ih =>
    cases hrem : remaining codec current with
    | mk items final =>
      cases items with
      | nil =>
        obtain ⟨generation, hstep⟩ := fileStep_finished codec root batchBytes h
          (by rw [hrem]; intro item hitem; cases hitem)
        refine ⟨[], ?_, .nil⟩
        rw [streams, hstep]
        rfl
      | cons item items =>
        cases hline : item.line with
        | none =>
          obtain rfl := eq_nil_of_damaged codec h hrem hline
          obtain ⟨generation, hstep⟩ := fileStep_finished codec root batchBytes h
            (by rw [hrem]; rintro _ ⟨⟩; exact hline)
          refine ⟨[], ?_, .damaged item hline⟩
          rw [streams, hstep]
          rfl
        | some line =>
          obtain ⟨stream, next, hstep, hdrawn⟩ := fileStep_stream codec root batchBytes h hrem hline
          have hrest := Scale.flatten_segments payloadScale (exceeds batchBytes)
            (payloadScale.fill (exceeds batchBytes) (payloadScale.start item) items).2
          have hholds : Holds current.name current.withBloom final item _ _ stream :=
            ⟨hdrawn.withBloom, hdrawn.lines, by rw [hrest]; exact hdrawn.identity item rfl⟩
          have hsome : item.line ≠ none := by
            rw [hline]
            exact some_ne_none line
          rw [Scale.segments_cons, streams, hstep]
          cases next with
          | none =>
            refine ⟨[stream], rfl, ?_⟩
            refine .cons stream [] item _ _ hsome hholds ?_
            rw [hdrawn.ended rfl]
            exact .nil
          | some file =>
            obtain ⟨hlive, hsame, hrem', hlt⟩ := hdrawn.going file rfl
            obtain ⟨ss, hss, hyields⟩ := ih hlive (by omega)
            rw [hsame.1, hsame.2.1, hrem'] at hyields
            refine ⟨stream :: ss, ?_, .cons stream ss item _ _ hsome hholds hyields⟩
            simp only [ok_bind, hss]
            rfl

end

variable (h : Ordered items final) {f' r f : List (Item J)} {x' : Item J}
include h

theorem Ordered.tail {items' : List (Item J)} (hsuffix : items' <:+ items) : Ordered items' final :=
  ⟨h.increasing.sublist hsuffix.sublist, fun item hitem ↦ h.nonempty item (hsuffix.subset hitem),
    fun item hitem ↦ h.final item (hsuffix.subset hitem)⟩

theorem Ordered.offsets : (items.map (·.offset)).Nodup := by
  rw [List.Nodup, pairwise_map]
  refine h.increasing.imp ?_
  intro a b hab heq
  simp only [recordHeaderLen] at hab
  omega

theorem Ordered.stopAt_lt {y : Item J} {ys : List (Item J)} (hitems : items = y :: ys ++ r) :
    stopAt items final < stopAt r final := by
  have hy : y ∈ items := by
    rw [hitems]
    exact mem_cons_self
  have hpos := h.nonempty y hy
  have hfinal := h.final y hy
  have hinc := h.increasing
  rw [hitems] at hinc
  rw [hitems]
  cases r with
  | nil =>
    simp only [stopAt, cons_append]
    omega
  | cons z r =>
    have hyz := rel_of_pairwise_cons hinc (mem_append_right ys mem_cons_self)
    simp only [stopAt, cons_append]
    omega

theorem Ordered.split_unique {t t' : List (Item J)} {x : Item J} (hx : items = f ++ x :: t)
    (hx' : items = f' ++ x' :: t') (hoffset : x.offset = x'.offset) : x = x' ∧ t = t' := by
  have hmem : x ∈ items := by simp [hx]
  have hmem' : x' ∈ items := by simp [hx']
  obtain rfl := inj_on_of_nodup_map h.offsets hmem hmem' hoffset
  have hnodup := h.offsets.of_map
  have hout : ∀ {g u : List (Item J)}, items = g ++ x :: u → x ∉ g := by
    intro g u hg hxg
    rw [hg, nodup_append] at hnodup
    exact hnodup.2.2 x hxg x mem_cons_self rfl
  exact ⟨rfl, (append_sep_inj (hout hx) (hout hx') (hx.symm.trans hx')).2⟩

theorem Ordered.cut_unique {xs xs' r' : List (Item J)}
    {x : Item J} (hx : items = f ++ (x :: xs ++ r)) (hx' : items = f' ++ (x' :: xs' ++ r'))
    (hstart : x.offset = x'.offset) (hstop : stopAt r final = stopAt r' final) :
    x :: xs = x' :: xs' ∧ r = r' := by
  obtain ⟨rfl, happ⟩ := h.split_unique hx hx' hstart
  have hr : r <:+ items := ⟨f ++ x :: xs, by rw [hx, append_assoc]⟩
  have hr' : r' <:+ items := ⟨f' ++ x :: xs', by rw [hx', append_assoc]⟩
  rcases append_eq_append_iff.mp happ with ⟨as, rfl, hrest⟩ | ⟨as, rfl, hrest⟩
  · cases as with
    | nil => exact ⟨by simp, hrest⟩
    | cons y ys =>
      have hlt := (h.tail hr).stopAt_lt hrest
      omega
  · cases as with
    | nil => exact ⟨by simp, hrest.symm⟩
    | cons y ys =>
      have hlt := (h.tail hr').stopAt_lt hrest
      omega

end Temps.LogAggregator.Chunk.Wal
