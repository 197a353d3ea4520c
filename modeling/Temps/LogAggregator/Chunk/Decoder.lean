import Temps.LogAggregator.Chunk.Encoder

namespace Temps.LogAggregator.Chunk

open Lib Lib.Octets Lib.Utf8 LogAggregator.Types

variable {J : Type}

def slice (buf : Bytes) (start stop : ℕ) : Bytes := (buf.drop start).take (stop - start)

def hex (n : ℕ) : String := "0x" ++ String.ofList (Nat.toDigits 16 n)

def decodeTrailer (tail : Bytes) : Except LogAggregatorError Trailer :=
  if tail.length < trailerLen then
    .error (.chunkFormat ("trailer buffer too short: " ++ toString tail.length ++
      " bytes, need at least " ++ toString trailerLen))
  else
    let t := tail.drop (tail.length - trailerLen)
    let magic := ofLe (slice t 44 48)
    if magic ≠ chunkMagic then
      .error (.chunkFormat ("bad chunk magic: expected " ++ hex chunkMagic ++ ", got " ++ hex magic))
    else
      let version := ofLe (slice t 40 42)
      if version ≠ formatVersion then
        .error (.chunkFormat ("unsupported chunk format version " ++ toString version ++
          ", expected " ++ toString formatVersion))
      else
        .ok
          { labelsOff := ofLe (slice t 0 8)
            labelsLen := ofLe (slice t 8 12)
            indexOff := ofLe (slice t 12 20)
            indexLen := ofLe (slice t 20 24)
            bloomOff := ofLe (slice t 24 32)
            bloomLen := ofLe (slice t 32 36)
            crc32 := ofLe (slice t 36 40)
            version := version }

def liftJson {α : Type} (r : Except String α) : Except LogAggregatorError α :=
  match r with
  | .ok a => .ok a
  | .error reason => .error (.serialization reason)

def decodeFooter (codecs : Codecs J) (footerBytes : Bytes) (trailer : Trailer) :
    Except LogAggregatorError ChunkFooter :=
  if footerBytes.length < trailerLen then
    .error (.chunkFormat ("footer buffer too short: " ++ toString footerBytes.length ++
      " bytes, need at least " ++ toString trailerLen ++ " for the trailer"))
  else
    let labelsLen := trailer.labelsLen
    let indexLen := trailer.indexLen
    let bloomLen := trailer.bloomLen
    let needed := labelsLen + indexLen + bloomLen + trailerLen
    if footerBytes.length < needed then
      .error (.chunkFormat ("footer buffer too short for declared sections: got " ++
        toString footerBytes.length ++ " bytes, need " ++ toString needed))
    else
      let labelsBytes := slice footerBytes 0 labelsLen
      let indexBytes := slice footerBytes labelsLen (labelsLen + indexLen)
      let bloomBytes :=
        slice footerBytes (labelsLen + indexLen) (labelsLen + indexLen + bloomLen)
      let computed := codecs.crc32 (labelsBytes ++ indexBytes ++ bloomBytes)
      if computed ≠ trailer.crc32 then
        .error (.chunkFormat ("footer crc32 mismatch: computed " ++ hex computed ++
          ", trailer says " ++ hex trailer.crc32))
      else do
        let labels ← liftJson (codecs.labelsFromSlice labelsBytes)
        let blocks ← liftJson (codecs.indexFromSlice indexBytes)
        let bloom ← if bloomLen = 0 then .ok none else (Bloom.fromBytes bloomBytes).map some
        return ⟨labels, blocks, bloom⟩

structure BlockFilter where
  start : Option ℤ
  stop : Option ℤ
  levelMask : ℕ

namespace BlockFilter

def all : BlockFilter := ⟨none, none, 0⟩

def matchesLine (filter : BlockFilter) (ts : ℤ) (level : LogLevel) : Bool :=
  !(filter.start.any (ts < ·)) && !(filter.stop.any (· < ts)) &&
    !(filter.levelMask ≠ 0 && filter.levelMask &&& levelBit level = 0)

end BlockFilter

def getVarint (buf : Bytes) (cursor : ℕ) : Except LogAggregatorError (ℕ × ℕ) :=
  match Varint.get buf cursor with
  | .ok r => .ok r
  | .error (.truncated cursor) =>
    .error (.chunkFormat ("block body truncated inside a varint at byte " ++ toString cursor))
  | .error (.tooLong cursor) =>
    .error (.chunkFormat ("varint longer than 10 bytes at byte " ++ toString cursor))

def requireLen (buf : Bytes) (needed : ℕ) : Except LogAggregatorError Unit :=
  if buf.length < needed then
    .error (.chunkFormat ("block body truncated: needed at least " ++ toString needed ++
      " bytes, got " ++ toString buf.length))
  else .ok ()

/-- `start + len` in a 64 bit `usize`. -/
def spanEnd (buf : Bytes) (start len : ℕ) : Except LogAggregatorError ℕ :=
  if 2 ^ 64 ≤ start + len then
    .error (.chunkFormat ("block body span overflows: start " ++ toString start ++ " + len " ++
      toString len))
  else do
    requireLen buf (start + len)
    return start + len

def decodeTimestamps (body : Bytes) :
    ℕ → ℕ → BitVec 64 → Except LogAggregatorError (List (BitVec 64) × ℕ)
  | 0, cursor, _ => .ok ([], cursor)
  | n + 1, cursor, prev => do
    let (v, cursor) ← getVarint body cursor
    let ts := prev + Varint.unzigzag (BitVec.ofNat 64 v)
    let (rest, cursor) ← decodeTimestamps body n cursor ts
    return (ts :: rest, cursor)

def lengthPrefixSums (buf : Bytes) :
    ℕ → ℕ → ℕ → Except LogAggregatorError (List ℕ × ℕ)
  | 0, cursor, _ => .ok ([], cursor)
  | n + 1, cursor, total => do
    let (len, cursor) ← getVarint buf cursor
    if 2 ^ 64 ≤ total + len ∨ buf.length < total + len then
      .error (.chunkFormat ("block column length " ++ toString len ++ " exceeds body of " ++
        toString buf.length ++ " bytes"))
    else do
      let (rest, cursor) ← lengthPrefixSums buf n cursor (total + len)
      return ((total + len) :: rest, cursor)

/-- The columns of a decompressed block: where they start and the prefix sums of their lengths. -/
structure Columns where
  ts : List (BitVec 64)
  levelStart : ℕ
  streamStart : ℕ
  msgOffsets : List ℕ
  msgStart : ℕ
  fieldsOffsets : List ℕ
  fieldsStart : ℕ

def decodeColumns (body : Bytes) (lineCount : ℕ) : Except LogAggregatorError Columns := do
  let (ts, levelStart) ← decodeTimestamps body lineCount 4 0
  let streamStart ← spanEnd body levelStart lineCount
  let cursor ← spanEnd body streamStart lineCount
  let (msgSums, msgStart) ← lengthPrefixSums body lineCount cursor 0
  let msgOffsets := 0 :: msgSums
  let cursor ← spanEnd body msgStart (msgOffsets.getD lineCount 0)
  let (fieldsSums, fieldsStart) ← lengthPrefixSums body lineCount cursor 0
  let fieldsOffsets := 0 :: fieldsSums
  let _ ← spanEnd body fieldsStart (fieldsOffsets.getD lineCount 0)
  return ⟨ts, levelStart, streamStart, msgOffsets, msgStart, fieldsOffsets, fieldsStart⟩

def decodeFields (codecs : Codecs J) (body : Bytes) (start stop : ℕ) :
    Except LogAggregatorError (Option J) :=
  if start = stop then .ok none
  else (liftJson (codecs.fieldsFromSlice (slice body start stop))).map some

def decodeLines (codecs : Codecs J) (body : Bytes) (blockMeta : BlockMeta) (filter : BlockFilter)
    (columns : Columns) : List ℕ → Except LogAggregatorError (List (DecodedLine J))
  | [] => .ok []
  | i :: rest => do
    let ts := tsFromNanos (columns.ts.getD i 0)
    let level := levelFromU8 (body.getD (columns.levelStart + i) 0)
    if !filter.matchesLine ts level then decodeLines codecs body blockMeta filter columns rest
    else do
      let stream := streamFromU8 (body.getD (columns.streamStart + i) 0)
      let message := decodeLossy (slice body (columns.msgStart + columns.msgOffsets.getD i 0)
        (columns.msgStart + columns.msgOffsets.getD (i + 1) 0))
      let fields ← decodeFields codecs body
        (columns.fieldsStart + columns.fieldsOffsets.getD i 0)
        (columns.fieldsStart + columns.fieldsOffsets.getD (i + 1) 0)
      let lines ← decodeLines codecs body blockMeta filter columns rest
      return ⟨ts, level, stream, message, fields, (blockMeta.firstLineIndex + i) % 2 ^ 32⟩ :: lines

def decodeBlock (codecs : Codecs J) (compressed : Bytes) (blockMeta : BlockMeta)
    (filter : BlockFilter) : Except LogAggregatorError (List (DecodedLine J)) :=
  match codecs.zstdDecode compressed with
  | .error reason => .error (.decompressionFailed reason)
  | .ok body =>
    if body.length < 4 then
      .error (.chunkFormat ("block body too short: " ++ toString body.length ++ " bytes"))
    else
      let lineCount := ofLe (slice body 0 4)
      if body.length < lineCount then
        .error (.chunkFormat ("block claims " ++ toString lineCount ++ " lines in " ++
          toString body.length ++ " bytes"))
      else do
        let columns ← decodeColumns body lineCount
        decodeLines codecs body blockMeta filter columns (List.range lineCount)

end Temps.LogAggregator.Chunk
