import Temps.Lib.Absorb
import Temps.LogAggregator.Chunk.Wal

namespace Temps.LogAggregator.Services.Seal

open Lib Lib.Fallible Lib.Octets Lib.Unicode Lib.Wire Chunk Chunk.Wal Storage.Keys List
open LogAggregator.Types

variable {J : Type}

structure Platform (J : Type) where
  tables : Tables
  xxh3 : Xxh3
  codecs : Codecs J
  records : RecordCodec J
  sha : Sha256
  calendar : Calendar

def identityFromLine (line : LogLine J) : ChunkIdentity where
  projectId := line.projectId
  externalServiceId := line.externalServiceId
  env := line.env
  service := line.service
  containerId := line.containerId
  deployId := line.deployId
  nodeId := line.nodeId
  nodeName := line.nodeName

def encodeGeneration (p : Platform J) (identity : ChunkIdentity) (lines : List (LogLine J))
    (withBloom : Bool) (recoveryIdentity : Option Text) :
    Except LogAggregatorError (Text × EncodedChunk) := do
  let encoded ← ChunkEncoder.encodeLines p.tables p.xxh3 p.codecs identity lines withBloom
  return (chunkKey p.calendar encoded.footer.labels
    (contentHash p.sha recoveryIdentity encoded.bytes), encoded)

structure Row (J : Type) where
  storageKey : Text
  lines : List (LogLine J)

def insert (rows : List (Row J)) (row : Row J) : List (Row J) :=
  Absorb.insert Row.storageKey rows row

def rowOf (p : Platform J) (stream : RecoveredStream J) (first : LogLine J) :
    Except LogAggregatorError (Row J) := do
  let (key, _) ← encodeGeneration p (identityFromLine first) stream.lines stream.withBloom
    stream.recoveryIdentity
  return ⟨key, stream.lines⟩

def recoverStream (p : Platform J) (rows : List (Row J)) (stream : RecoveredStream J) :
    Except LogAggregatorError (List (Row J)) :=
  match stream.lines with
  | [] => .ok rows
  | first :: _ => do
    let row ← rowOf p stream first
    return insert rows row

theorem foldlM_recoverStream {p : Platform J} {ss : List (RecoveredStream J)}
    {rows out : List (Row J)} (hne : ∀ s ∈ ss, s.lines ≠ [])
    (h : ss.foldlM (recoverStream p) rows = .ok out) :
    ∃ rs, List.Forall₂ (fun s r ↦ ∃ first ∈ s.lines.head?, rowOf p s first = .ok r) ss rs ∧
      out = Absorb.insertAll Row.storageKey rows rs := by
  induction ss generalizing rows with
  | nil =>
    obtain rfl := Except.ok.inj h
    exact ⟨[], .nil, rfl⟩
  | cons s ss ih =>
    rw [forall_mem_cons] at hne
    obtain ⟨mid, hmid, hrest⟩ := bind_eq_ok.mp h
    obtain ⟨rs, hrs, rfl⟩ := ih hne.2 hrest
    cases hlines : s.lines with
    | nil => exact absurd hlines hne.1
    | cons first lines =>
      simp only [recoverStream, hlines] at hmid
      obtain ⟨row, hrow, hinsert⟩ := bind_eq_ok.mp hmid
      obtain rfl := Except.ok.inj hinsert
      refine ⟨row :: rs, .cons ⟨first, ?_, hrow⟩ hrs, rfl⟩
      rw [hlines]
      rfl

def levelCode : Code LogLevel :=
  Code.nat.map (fun level ↦ (levelIndex level).val) (fun n ↦ levelFromU8 (UInt8.ofNat n))
    levelFromU8_levelToU8

def streamCode : Code LogStream :=
  Code.nat.map (fun stream ↦ (streamToU8 stream).toNat) (fun n ↦ streamFromU8 (UInt8.ofNat n))
    fun stream ↦ by cases stream <;> rfl

def lineCode : Code (LogLine ℕ) :=
  (Code.int.pair (streamCode.pair (levelCode.pair (Code.text.pair (Code.nat.option.pair
    identityCode))))).map
    (fun l ↦ (l.ts, l.stream, l.level, l.msg, l.fields, identityFromLine l))
    (fun (t, s, l, m, f, i) ↦ ⟨t, s, l, m, f, i.containerId, i.service, i.env, i.projectId,
      i.externalServiceId, i.deployId, i.nodeId, i.nodeName⟩)
    fun _ ↦ rfl

theorem plain_crc32_lt (bytes : Bytes) : bytes.length % 2 ^ 32 < 2 ^ 32 :=
  Nat.mod_lt _ (by decide)

def plainRecords : RecordCodec ℕ where
  toVec := lineCode.put
  fromSlice := lineCode.decode
  crc32 bytes := bytes.length % 2 ^ 32
  lossless := lineCode.decode_put
  nil_error line h := by cases h
  crc32_lt := plain_crc32_lt

theorem toNat_shifted : ∀ n : Fin 256, (Char.ofNat (0x100 + n.val)).toNat = 0x100 + n.val := by
  decide +kernel

def plainSha : Sha256 where
  hexDigest bytes := bytes.map fun b ↦ Char.ofNat (0x100 + b.toNat)
  injective := by
    apply List.map_injective_iff.mpr
    intro a b h
    have ha := toNat_shifted ⟨a.toNat, a.toNat_lt⟩
    have hb := toNat_shifted ⟨b.toNat, b.toNat_lt⟩
    simp only at h ha hb
    rw [h, hb] at ha
    exact UInt8.toNat_inj.mp (by omega)
  hex bytes c hc := by
    obtain ⟨b, -, rfl⟩ := List.mem_map.mp hc
    intro hdash
    have hb := toNat_shifted ⟨b.toNat, b.toNat_lt⟩
    simp only [hdash] at hb
    have hlow : '-'.toNat < 0x100 := by decide
    omega

def plainPlatform : Platform ℕ where
  tables := asciiTables
  xxh3 := fun _ seed ↦ seed
  codecs := plainCodecs
  records := plainRecords
  sha := plainSha
  calendar := ⟨fun _ ↦ [], fun _ ↦ []⟩

end Temps.LogAggregator.Services.Seal
