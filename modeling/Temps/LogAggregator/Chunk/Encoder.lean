import Temps.Lib.Varint
import Temps.Lib.Wire
import Temps.LogAggregator.Chunk.Bloom

namespace Temps.LogAggregator.Chunk

open Lib Lib.Octets Lib.Utf8 Lib.Unicode Lib.Wire LogAggregator.Types

def chunkMagic : ℕ := 0x32434C54

def formatVersion : ℕ := 2

def trailerLen : ℕ := 48

def skippableMagic : ℕ := 0x184D2A50

def skippableHeaderLen : ℕ := 8

def targetBlockBytes : ℕ := 256 * 1024

def levelIndex : LogLevel → Fin 5
  | .trace => 0
  | .debug => 1
  | .info => 2
  | .warn => 3
  | .error => 4

def levelBit (level : LogLevel) : ℕ := 1 <<< (levelIndex level).val

def levelToU8 (level : LogLevel) : UInt8 := UInt8.ofNat (levelIndex level).val

def levelFromU8 (b : UInt8) : LogLevel :=
  if b = 0 then .trace
  else if b = 1 then .debug
  else if b = 3 then .warn
  else if b = 4 then .error
  else .info

def streamToU8 : LogStream → UInt8
  | .stdout => 0
  | .stderr => 1

def streamFromU8 (b : UInt8) : LogStream := if b = 1 then .stderr else .stdout

/-- Lines per level, indexed as `level_to_u8` numbers the levels. -/
abbrev LevelCounts := Fin 5 → ℕ

structure ChunkIdentity where
  projectId : ℤ
  externalServiceId : Option ℤ
  env : String
  service : String
  containerId : String
  deployId : Option ℤ
  nodeId : Option ℤ
  nodeName : Option String
deriving DecidableEq

structure ChunkLabels extends ChunkIdentity where
  startedAt : ℤ
  endedAt : ℤ
  lineCount : ℕ
  levelMask : ℕ
  levelCounts : LevelCounts

structure BlockMeta where
  offset : ℕ
  len : ℕ
  uncompressedLen : ℕ
  firstTs : ℤ
  lastTs : ℤ
  lineCount : ℕ
  firstLineIndex : ℕ
  levelMask : ℕ
  levelCounts : LevelCounts

structure ChunkFooter where
  labels : ChunkLabels
  blocks : List BlockMeta
  bloom : Option Bloom

structure Trailer where
  labelsOff : ℕ
  labelsLen : ℕ
  indexOff : ℕ
  indexLen : ℕ
  bloomOff : ℕ
  bloomLen : ℕ
  crc32 : ℕ
  version : ℕ
  deriving DecidableEq

def Trailer.footerOffset (t : Trailer) : ℕ := t.labelsOff

def Trailer.footerLen (t : Trailer) : ℕ := t.bloomOff + t.bloomLen + trailerLen - t.labelsOff

structure DecodedLine (J : Type) where
  ts : ℤ
  level : LogLevel
  stream : LogStream
  message : Text
  fields : Option J
  lineIndex : ℕ

/-- The external codecs of the chunk format. Compression and JSON are lossless; no JSON value has an
empty encoding; the checksum is a function into 32 bits. -/
structure Codecs (J : Type) where
  zstdEncode : Bytes → Bytes
  zstdDecode : Bytes → Except String Bytes
  fieldsToVec : J → Bytes
  fieldsFromSlice : Bytes → Except String J
  labelsToVec : ChunkLabels → Bytes
  labelsFromSlice : Bytes → Except String ChunkLabels
  indexToVec : List BlockMeta → Bytes
  indexFromSlice : Bytes → Except String (List BlockMeta)
  crc32 : Bytes → ℕ
  zstd_lossless : ∀ bytes, zstdDecode (zstdEncode bytes) = .ok bytes
  fields_lossless : ∀ json, fieldsFromSlice (fieldsToVec json) = .ok json
  fields_ne_nil : ∀ json, fieldsToVec json ≠ []
  labels_lossless : ∀ labels, labelsFromSlice (labelsToVec labels) = .ok labels
  index_lossless : ∀ blocks, indexFromSlice (indexToVec blocks) = .ok blocks
  crc32_lt : ∀ bytes, crc32 bytes < 2 ^ 32

theorem levelFromU8_levelToU8 (level : LogLevel) : levelFromU8 (levelToU8 level) = level := by
  cases level <;> decide

theorem streamFromU8_streamToU8 (stream : LogStream) :
    streamFromU8 (streamToU8 stream) = stream := by
  cases stream <;> decide

def identityCode : Code ChunkIdentity :=
  (Code.int.pair (Code.int.option.pair (Code.string.pair (Code.string.pair (Code.string.pair
    (Code.int.option.pair (Code.int.option.pair Code.string.option))))))).map
    (fun i ↦ (i.projectId, i.externalServiceId, i.env, i.service, i.containerId, i.deployId,
      i.nodeId, i.nodeName))
    (fun (p, x, e, s, c, d, n, m) ↦ ⟨p, x, e, s, c, d, n, m⟩) fun _ ↦ rfl

def labelsCode : Code ChunkLabels :=
  (identityCode.pair (Code.int.pair (Code.int.pair (Code.nat.pair (Code.nat.pair
    (Code.nat.vector 5 0)))))).map
    (fun l ↦ (l.toChunkIdentity, l.startedAt, l.endedAt, l.lineCount, l.levelMask, l.levelCounts))
    (fun (i, s, e, n, m, c) ↦ ⟨i, s, e, n, m, c⟩) fun _ ↦ rfl

def blockMetaCode : Code BlockMeta :=
  (Code.nat.pair (Code.nat.pair (Code.nat.pair (Code.int.pair (Code.int.pair (Code.nat.pair
    (Code.nat.pair (Code.nat.pair (Code.nat.vector 5 0))))))))).map
    (fun b ↦ (b.offset, b.len, b.uncompressedLen, b.firstTs, b.lastTs, b.lineCount,
      b.firstLineIndex, b.levelMask, b.levelCounts))
    (fun (o, l, u, f, t, n, i, m, c) ↦ ⟨o, l, u, f, t, n, i, m, c⟩) fun _ ↦ rfl

def plainCodecs : Codecs ℕ where
  zstdEncode := id
  zstdDecode := .ok
  fieldsToVec := Code.nat.put
  fieldsFromSlice := Code.nat.decode
  labelsToVec := labelsCode.put
  labelsFromSlice := labelsCode.decode
  indexToVec := blockMetaCode.list.put
  indexFromSlice := blockMetaCode.list.decode
  crc32 bytes := bytes.length % 2 ^ 32
  zstd_lossless _ := rfl
  fields_lossless := Code.nat.decode_put
  fields_ne_nil _ := List.append_ne_nil_of_right_ne_nil _ (List.cons_ne_nil _ _)
  labels_lossless := labelsCode.decode_put
  index_lossless := blockMetaCode.list.decode_put
  crc32_lt _ := Nat.mod_lt _ (by decide)

variable {J : Type}

/-- The running level mask, level counts and time bounds that the block and the chunk both keep. -/
structure Stats where
  levelMask : ℕ
  levelCounts : LevelCounts
  minTs : Option ℤ
  maxTs : Option ℤ

namespace Stats

def empty : Stats := ⟨0, fun _ ↦ 0, none, none⟩

def push (s : Stats) (line : LogLine J) : Stats where
  levelMask := s.levelMask ||| levelBit line.level
  levelCounts := fun i ↦
    if i = levelIndex line.level then (s.levelCounts i + 1) % 2 ^ 32 else s.levelCounts i
  minTs := match s.minTs with
    | some existing => if existing ≤ line.ts then some existing else some line.ts
    | none => some line.ts
  maxTs := match s.maxTs with
    | some existing => if line.ts ≤ existing then some existing else some line.ts
    | none => some line.ts

end Stats

def i64Min : ℤ := -2 ^ 63

def i64Max : ℤ := 2 ^ 63 - 1

/-- `timestamp_nanos_opt`, falling back to saturated milliseconds. -/
def tsNanos (ts : ℤ) : BitVec 64 :=
  if i64Min ≤ ts ∧ ts ≤ i64Max then BitVec.ofInt 64 ts
  else BitVec.ofInt 64 (max i64Min (min i64Max (ts / 1000000 * 1000000)))

def tsFromNanos (nanos : BitVec 64) : ℤ := nanos.toInt

structure CurrentBlock where
  ts : List (BitVec 64)
  level : Bytes
  stream : Bytes
  msgOffsets : List ℕ
  msgBytes : Bytes
  fieldsOffsets : List ℕ
  fieldsBytes : Bytes
  stats : Stats

namespace CurrentBlock

def new : CurrentBlock := ⟨[], [], [], [0], [], [0], [], Stats.empty⟩

def lineCount (b : CurrentBlock) : ℕ := b.ts.length

def estimatedBytes (b : CurrentBlock) : ℕ :=
  4 + b.lineCount * 4 + b.lineCount + b.lineCount + b.lineCount * 2 + b.msgBytes.length +
    b.lineCount + b.fieldsBytes.length

def fieldsOf (codecs : Codecs J) (line : LogLine J) : Bytes :=
  match line.fields with
  | some fields => codecs.fieldsToVec fields
  | none => []

def push (codecs : Codecs J) (b : CurrentBlock) (line : LogLine J) : CurrentBlock :=
  let msgBytes := b.msgBytes ++ encode line.msg
  let fieldsBytes := b.fieldsBytes ++ fieldsOf codecs line
  { ts := b.ts ++ [tsNanos line.ts]
    level := b.level ++ [levelToU8 line.level]
    stream := b.stream ++ [streamToU8 line.stream]
    msgOffsets := b.msgOffsets ++ [msgBytes.length % 2 ^ 32]
    msgBytes := msgBytes
    fieldsOffsets := b.fieldsOffsets ++ [fieldsBytes.length % 2 ^ 32]
    fieldsBytes := fieldsBytes
    stats := b.stats.push line }

def putDeltas : BitVec 64 → List (BitVec 64) → Bytes
  | _, [] => []
  | prev, ts :: rest => Varint.put (Varint.zigzag (ts - prev)).toNat ++ putDeltas ts rest

def putLengths : List ℕ → Bytes
  | a :: b :: rest => Varint.put ((b + 2 ^ 32 - a) % 2 ^ 32) ++ putLengths (b :: rest)
  | _ => []

def serialize (b : CurrentBlock) : Bytes :=
  le 4 b.lineCount ++ putDeltas 0 b.ts ++ b.level ++ b.stream ++ putLengths b.msgOffsets ++
    b.msgBytes ++ putLengths b.fieldsOffsets ++ b.fieldsBytes

end CurrentBlock

structure ChunkEncoder where
  identity : ChunkIdentity
  body : Bytes
  blockMetas : List BlockMeta
  bloomEntries : List UInt64
  current : CurrentBlock
  totalLines : ℕ
  stats : Stats

structure EncodedChunk where
  bytes : Bytes
  footer : ChunkFooter
  trailer : Trailer

def encodeTrailer (t : Trailer) : Bytes :=
  le 8 t.labelsOff ++ le 4 t.labelsLen ++ le 8 t.indexOff ++ le 4 t.indexLen ++ le 8 t.bloomOff ++
    le 4 t.bloomLen ++ le 4 t.crc32 ++ le 2 t.version ++ le 2 0 ++ le 4 chunkMagic

namespace ChunkEncoder

variable (u : Tables) (xxh3 : Xxh3) (codecs : Codecs J)

def new (identity : ChunkIdentity) : ChunkEncoder :=
  ⟨identity, [], [], [], CurrentBlock.new, 0, Stats.empty⟩

def sealCurrentBlock (e : ChunkEncoder) : ChunkEncoder :=
  if e.current.ts = [] then e
  else
    let firstLineIndex := e.blockMetas.getLast?.elim 0
      fun m ↦ (m.firstLineIndex + m.lineCount) % 2 ^ 32
    let uncompressed := e.current.serialize
    let compressed := codecs.zstdEncode uncompressed
    { e with
      body := e.body ++ compressed
      blockMetas := e.blockMetas ++ [
        { offset := e.body.length
          len := compressed.length % 2 ^ 32
          uncompressedLen := uncompressed.length % 2 ^ 32
          firstTs := e.current.stats.minTs.getD 0
          lastTs := e.current.stats.maxTs.getD 0
          lineCount := e.current.lineCount % 2 ^ 32
          firstLineIndex := firstLineIndex
          levelMask := e.current.stats.levelMask
          levelCounts := e.current.stats.levelCounts }]
      current := CurrentBlock.new }

def push (e : ChunkEncoder) (line : LogLine J) : ChunkEncoder :=
  let pushed := { e with
    bloomEntries := insertMessage u xxh3 e.bloomEntries line.msg
    current := e.current.push codecs line
    totalLines := (e.totalLines + 1) % 2 ^ 32
    stats := e.stats.push line }
  if targetBlockBytes ≤ pushed.current.estimatedBytes then pushed.sealCurrentBlock codecs
  else pushed

def finish (e : ChunkEncoder) (withBloom : Bool) : Except LogAggregatorError EncodedChunk :=
  let e := e.sealCurrentBlock codecs
  if e.totalLines = 0 then
    .error (.chunkFormat "cannot encode an empty chunk (no lines were pushed)")
  else
    match e.stats.minTs, e.stats.maxTs with
    | none, _ =>
      .error (.chunkFormat "chunk has lines but no minimum timestamp; this is a bug")
    | _, none =>
      .error (.chunkFormat "chunk has lines but no maximum timestamp; this is a bug")
    | some startedAt, some endedAt =>
      let labels : ChunkLabels :=
        { e.identity with
          startedAt := startedAt
          endedAt := endedAt
          lineCount := e.totalLines
          levelMask := e.stats.levelMask
          levelCounts := e.stats.levelCounts }
      let labelsBytes := codecs.labelsToVec labels
      let indexBytes := codecs.indexToVec e.blockMetas
      let bloom := if withBloom then some (build xxh3 e.bloomEntries) else none
      let bloomBytes := (bloom.map Bloom.toBytes).getD []
      let payloadLen := labelsBytes.length + indexBytes.length + bloomBytes.length + trailerLen
      if 2 ^ 32 ≤ payloadLen then
        .error (.chunkFormat ("footer of " ++ toString payloadLen ++
          " bytes exceeds the skippable-frame limit"))
      else
        let labelsOff := e.body.length + skippableHeaderLen
        let labelsLen := labelsBytes.length % 2 ^ 32
        let indexOff := labelsOff + labelsLen
        let indexLen := indexBytes.length % 2 ^ 32
        let bloomOff := indexOff + indexLen
        let bloomLen := bloomBytes.length % 2 ^ 32
        let trailer : Trailer :=
          ⟨labelsOff, labelsLen, indexOff, indexLen, bloomOff, bloomLen,
            codecs.crc32 (labelsBytes ++ indexBytes ++ bloomBytes), formatVersion⟩
        .ok
          { bytes := e.body ++ le 4 skippableMagic ++ le 4 payloadLen ++ labelsBytes ++
              indexBytes ++ bloomBytes ++ encodeTrailer trailer
            footer := ⟨labels, e.blockMetas, bloom⟩
            trailer := trailer }

def encodeLines (identity : ChunkIdentity) (lines : List (LogLine J)) (withBloom : Bool) :
    Except LogAggregatorError EncodedChunk :=
  (lines.foldl (push u xxh3 codecs) (new identity)).finish xxh3 codecs withBloom

end ChunkEncoder

end Temps.LogAggregator.Chunk
