import Temps.LogAggregator.Chunk.FooterRoundTrip
import Temps.LogAggregator.Chunk.Summary

namespace Temps.LogAggregator.Chunk.ChunkRoundTrip

open Lib Lib.Fallible Lib.Octets Lib.Unicode CurrentBlock ChunkEncoder BlockRoundTrip List
open LogAggregator.Types FooterRoundTrip Summary

variable {J : Type} {u : Tables} {xxh3 : Xxh3} {codecs : Codecs J}

def frame (codecs : Codecs J) (lines : List (LogLine J)) : Bytes :=
  codecs.zstdEncode (blockOf codecs lines).serialize

def cutLine (codecs : Codecs J) (s : List (List (LogLine J)) × List (LogLine J))
    (line : LogLine J) : List (List (LogLine J)) × List (LogLine J) :=
  if targetBlockBytes ≤ (blockOf codecs (s.2 ++ [line])).estimatedBytes then
    (s.1 ++ [s.2 ++ [line]], [])
  else (s.1, s.2 ++ [line])

def closeBlock (s : List (List (LogLine J)) × List (LogLine J)) : List (List (LogLine J)) :=
  if s.2.isEmpty then s.1 else s.1 ++ [s.2]

def cut (codecs : Codecs J) (lines : List (LogLine J)) : List (List (LogLine J)) :=
  closeBlock (lines.foldl (cutLine codecs) ([], []))

def metaOf (codecs : Codecs J) (offset first : ℕ) (lines : List (LogLine J)) : BlockMeta where
  offset := offset
  len := (frame codecs lines).length % 2 ^ 32
  uncompressedLen := (blockOf codecs lines).serialize.length % 2 ^ 32
  firstTs := (statsOf lines).minTs.getD 0
  lastTs := (statsOf lines).maxTs.getD 0
  lineCount := lines.length % 2 ^ 32
  firstLineIndex := first % 2 ^ 32
  levelMask := (statsOf lines).levelMask
  levelCounts := (statsOf lines).levelCounts

def metasFrom (codecs : Codecs J) : ℕ → ℕ → List (List (LogLine J)) → List BlockMeta
  | _, _, [] => []
  | offset, first, b :: rest => metaOf codecs offset first b ::
      metasFrom codecs (offset + (frame codecs b).length) (first + b.length) rest

/-- The encoder after the blocks `s.1` and the open lines `s.2`. -/
structure Encoding (u : Tables) (xxh3 : Xxh3) (codecs : Codecs J) (identity : ChunkIdentity)
    (s : List (List (LogLine J)) × List (LogLine J)) (e : ChunkEncoder) : Prop where
  identity : e.identity = identity
  body : e.body = s.1.flatMap (frame codecs)
  blockMetas : e.blockMetas = metasFrom codecs 0 0 s.1
  current : e.current = blockOf codecs s.2
  totalLines : e.totalLines = (s.1.flatten ++ s.2).length % 2 ^ 32
  stats : e.stats = statsOf (s.1.flatten ++ s.2)
  bloomEntries : e.bloomEntries =
    ((s.1.flatten ++ s.2).map (·.msg)).foldl (insertMessage u xxh3) []

section

variable (bs : List (List (LogLine J)))

theorem metasFrom_append (offset first : ℕ) (b : List (LogLine J)) :
    metasFrom codecs offset first (bs ++ [b]) = metasFrom codecs offset first bs ++
      [metaOf codecs (offset + (bs.flatMap (frame codecs)).length)
        (first + bs.flatten.length) b] := by
  induction bs generalizing offset first with
  | nil => simp [metasFrom]
  | cons a bs ih => simp [metasFrom, ih, Nat.add_assoc]

theorem firstLineIndex_next :
    ((metasFrom codecs 0 0 bs).getLast?.elim 0
      fun m ↦ (m.firstLineIndex + m.lineCount) % 2 ^ 32) = bs.flatten.length % 2 ^ 32 := by
  induction bs using List.reverseRecOn with
  | nil => rfl
  | append_singleton bs b _ =>
    rw [metasFrom_append]
    simp [metaOf]

end

variable {identity : ChunkIdentity} {s : List (List (LogLine J)) × List (LogLine J)}
  {e : ChunkEncoder} (lines : List (LogLine J))

theorem ts_blockOf : (blockOf codecs lines).ts = [] ↔ lines = [] := by
  rw [(filled_blockOf codecs lines).ts, map_eq_nil_iff]

theorem lineCount_blockOf : (blockOf codecs lines).lineCount = lines.length := by
  rw [lineCount, (filled_blockOf codecs lines).ts, length_map]

theorem flatten_closeBlock : (closeBlock s).flatten = s.1.flatten ++ s.2 := by
  by_cases hnil : s.2 = []
  · rw [closeBlock, if_pos (by simpa using hnil), hnil, append_nil]
  · rw [closeBlock, if_neg (by simpa using hnil), flatten_append, flatten_singleton]

theorem foldl_cutLine (hs : ∀ b ∈ s.1, b ≠ []) :
    (lines.foldl (cutLine codecs) s).1.flatten ++ (lines.foldl (cutLine codecs) s).2 =
        s.1.flatten ++ (s.2 ++ lines) ∧
      ∀ b ∈ (lines.foldl (cutLine codecs) s).1, b ≠ [] := by
  induction lines generalizing s with
  | nil => exact ⟨by simp, hs⟩
  | cons line lines ih =>
    rw [foldl_cons]
    by_cases hfull : targetBlockBytes ≤ (blockOf codecs (s.2 ++ [line])).estimatedBytes
    · rw [cutLine, if_pos hfull]
      have hne : ∀ b ∈ s.1 ++ [s.2 ++ [line]], b ≠ [] :=
        forall_mem_append.mpr ⟨hs, forall_mem_singleton.mpr (by simp)⟩
      have h := ih (s := (s.1 ++ [s.2 ++ [line]], [])) hne
      simpa using h
    · rw [cutLine, if_neg hfull]
      have h := ih (s := (s.1, s.2 ++ [line])) hs
      simpa using h

theorem flatten_cut : (cut codecs lines).flatten = lines := by
  rw [cut, flatten_closeBlock, (foldl_cutLine lines (by simp)).1]
  rfl

section

variable (h : Encoding u xxh3 codecs identity s e)
include h

theorem Encoding.seal :
    Encoding u xxh3 codecs identity (closeBlock s, []) (e.sealCurrentBlock codecs) := by
  by_cases hnil : s.2 = []
  · have hts : e.current.ts = [] := by rw [h.current, ts_blockOf, hnil]
    rw [sealCurrentBlock, if_pos hts, closeBlock, hnil]
    have hs : s = (s.1, []) := by rw [← hnil]
    rw [hs] at h
    exact h
  · have hts : ¬ e.current.ts = [] := by rwa [h.current, ts_blockOf]
    have hclose : closeBlock s = s.1 ++ [s.2] := by
      rw [closeBlock, if_neg (by simpa using hnil)]
    rw [sealCurrentBlock, if_neg hts, hclose]
    refine ⟨h.identity, ?_, ?_, rfl, ?_, ?_, ?_⟩
    · simp [h.body, h.current, frame]
    · rw [metasFrom_append, h.blockMetas, firstLineIndex_next, h.body, h.current,
        (filled_blockOf codecs s.2).stats, lineCount_blockOf]
      simp [metaOf, frame]
    · simp [h.totalLines]
    · simp [h.stats]
    · simp [h.bloomEntries]

theorem Encoding.push (line : LogLine J) :
    Encoding u xxh3 codecs identity (cutLine codecs s line) (e.push u xxh3 codecs line) := by
  have hcur : e.current.push codecs line = blockOf codecs (s.2 ++ [line]) := by
    rw [h.current, blockOf, blockOf, foldl_append]
    rfl
  have hpushed : Encoding u xxh3 codecs identity (s.1, s.2 ++ [line])
      { e with
        bloomEntries := insertMessage u xxh3 e.bloomEntries line.msg
        current := e.current.push codecs line
        totalLines := (e.totalLines + 1) % 2 ^ 32
        stats := e.stats.push line } := by
    refine ⟨h.identity, h.body, h.blockMetas, hcur, ?_, ?_, ?_⟩
    · simp only [h.totalLines, length_append, length_singleton]
      omega
    · rw [← append_assoc, statsOf_append, h.stats]
    · rw [← append_assoc, map_append, foldl_append, ← h.bloomEntries]
      rfl
  rw [ChunkEncoder.push, cutLine]
  simp only [hcur] at hpushed ⊢
  by_cases hfull : targetBlockBytes ≤ (blockOf codecs (s.2 ++ [line])).estimatedBytes
  · rw [if_pos hfull, if_pos hfull]
    have hclosed := hpushed.seal
    rw [closeBlock, if_neg (by simp)] at hclosed
    exact hclosed
  · rw [if_neg hfull, if_neg hfull]
    exact hpushed

theorem encoding_foldl :
    Encoding u xxh3 codecs identity (lines.foldl (cutLine codecs) s)
      (lines.foldl (ChunkEncoder.push u xxh3 codecs) e) := by
  induction lines generalizing s e with
  | nil => exact h
  | cons line lines ih => exact ih (h.push line)

end

theorem encoding_sealed :
    Encoding u xxh3 codecs identity (cut codecs lines, [])
      ((lines.foldl (ChunkEncoder.push u xxh3 codecs) (new identity)).sealCurrentBlock
        codecs) := by
  have hnew : Encoding u xxh3 codecs identity ([], []) (new identity) :=
    ⟨rfl, rfl, rfl, rfl, rfl, rfl, rfl⟩
  exact (encoding_foldl lines hnew).seal

variable {lines} {bytes : Bytes} {first offset : ℕ} {b : List (LogLine J)}

theorem ne_nil_of_mem_cut (h : b ∈ cut codecs lines) : b ≠ [] := by
  rw [cut, closeBlock] at h
  have hall : ∀ b ∈ (lines.foldl (cutLine codecs) ([], [])).1, b ≠ [] :=
    (foldl_cutLine lines (by simp)).2
  split at h
  · exact hall b h
  · rename_i hopen
    exact forall_mem_append.mpr ⟨hall, forall_mem_singleton.mpr (by simpa using hopen)⟩ b h

theorem tsFromNanos_tsNanos {ts : ℤ} (h : i64Min ≤ ts ∧ ts ≤ i64Max) :
    tsFromNanos (tsNanos ts) = ts := by
  rw [tsNanos, if_pos h]
  simp only [i64Min, i64Max] at h
  exact BitVec.toInt_ofInt_eq_self (by decide) (by omega) (by omega)

def lineAt (p : LogLine J × ℕ) : DecodedLine J :=
  ⟨p.1.ts, p.1.level, p.1.stream, p.1.msg, p.1.fields, p.2⟩

def InRange (lines : List (LogLine J)) : Prop :=
  ∀ line ∈ lines, i64Min ≤ line.ts ∧ line.ts ≤ i64Max

theorem decodeBlock_frame (offset : ℕ) (h : Narrow codecs lines) (hts : InRange lines)
    (hn : first + lines.length < 2 ^ 32) (filter : BlockFilter) :
    decodeBlock codecs (frame codecs lines) (metaOf codecs offset first lines) filter =
      .ok (((lines.zipIdx first).map lineAt).filter fun l ↦ filter.matchesLine l.ts l.level) := by
  have hshift : lines.zipIdx first = lines.zipIdx.map fun p ↦ (p.1, first + p.2) :=
    zipIdx_eq_map_add
  have hdecoded : ∀ p ∈ lines.zipIdx, decoded (metaOf codecs offset first lines).firstLineIndex
      p.1 p.2 = lineAt (p.1, first + p.2) := by
    intro p hp
    have hi := snd_lt_of_mem_zipIdx hp
    have hline : p.1 ∈ lines := fst_mem_of_mem_zipIdx hp
    have hindex : (first % 2 ^ 32 + p.2) % 2 ^ 32 = first + p.2 := by omega
    simp only [decoded, metaOf, lineAt, tsFromNanos_tsNanos (hts _ hline), hindex]
  have hkeeps : ∀ p ∈ lines.zipIdx, keeps filter p.1 =
      filter.matchesLine (lineAt (p.1, first + p.2)).ts (lineAt (p.1, first + p.2)).level := by
    intro p hp
    rw [keeps, tsFromNanos_tsNanos (hts _ (fst_mem_of_mem_zipIdx hp))]
    rfl
  rw [frame, decodeBlock_serialize h (by omega), hshift, map_map, filter_map, filter_congr hkeeps]
  congr 1
  exact map_congr_left fun p hp ↦ hdecoded p (mem_of_mem_filter hp)

theorem filter_matchesLine_all (lines : List (DecodedLine J)) :
    lines.filter (fun l ↦ BlockFilter.all.matchesLine l.ts l.level) = lines := by
  simp [BlockFilter.all, BlockFilter.matchesLine]

def decodeBlocks (codecs : Codecs J) (bytes : Bytes) :
    List BlockMeta → Except LogAggregatorError (List (DecodedLine J))
  | [] => .ok []
  | m :: rest => do
    let lines ← decodeBlock codecs (slice bytes m.offset (m.offset + m.len)) m BlockFilter.all
    let more ← decodeBlocks codecs bytes rest
    return lines ++ more

/-- How a block is read under any filter, and that its summary covers its lines. -/
structure Decodes (codecs : Codecs J) (bytes : Bytes) (m : BlockMeta)
    (lines : List (DecodedLine J)) : Prop where
  decode : ∀ filter, decodeBlock codecs (slice bytes m.offset (m.offset + m.len)) m filter =
    .ok (lines.filter fun l ↦ filter.matchesLine l.ts l.level)
  times : ∀ l ∈ lines, m.firstTs ≤ l.ts ∧ l.ts ≤ m.lastTs
  levels : ∀ l ∈ lines, m.levelMask.testBit (levelIndex l.level) = true

theorem decodeBlocks_eq {ms : List BlockMeta} {parts : List (List (DecodedLine J))}
    (h : List.Forall₂ (Decodes codecs bytes) ms parts) :
    decodeBlocks codecs bytes ms = .ok parts.flatten := by
  induction h with
  | nil => rfl
  | cons hm _ ih =>
    rw [decodeBlocks, hm.decode, filter_matchesLine_all, ih]
    rfl

def decodedParts : ℕ → List (List (LogLine J)) → List (List (DecodedLine J))
  | _, [] => []
  | first, b :: bs => (b.zipIdx first).map lineAt :: decodedParts (first + b.length) bs

theorem flatten_decodedParts (first : ℕ) (bs : List (List (LogLine J))) :
    (decodedParts first bs).flatten = (bs.flatten.zipIdx first).map lineAt := by
  induction bs generalizing first with
  | nil => rfl
  | cons b bs ih =>
    rw [decodedParts, flatten_cons, ih, flatten_cons, zipIdx_append, map_append]

theorem decodes_metaOf (hslice : slice bytes offset (offset + (frame codecs b).length) = frame codecs b)
    (hframe : (frame codecs b).length < 2 ^ 32) (hnarrow : Narrow codecs b) (hts : InRange b)
    (hn : first + b.length < 2 ^ 32) :
    Decodes codecs bytes (metaOf codecs offset first b) ((b.zipIdx first).map lineAt) := by
  have hlen : (metaOf codecs offset first b).len = (frame codecs b).length :=
    Nat.mod_eq_of_lt hframe
  refine ⟨fun filter ↦ ?_, forall_mem_map.mpr fun p hp ↦ ?_, forall_mem_map.mpr fun p hp ↦ ?_⟩
  · have hoffset : (metaOf codecs offset first b).offset = offset := rfl
    rw [hlen, hoffset, hslice]
    exact decodeBlock_frame offset hnarrow hts hn filter
  · obtain ⟨lo, hi, hmin, hmax, hlo, hhi, -⟩ := statsOf_covers (fst_mem_of_mem_zipIdx hp)
    simp only [metaOf, hmin, hmax]
    exact ⟨hlo, hhi⟩
  · obtain ⟨-, -, -, -, -, -, hlevel⟩ := statsOf_covers (fst_mem_of_mem_zipIdx hp)
    exact hlevel

theorem decodes_metasFrom {rest : Bytes} (bs : List (List (LogLine J)))
    (h : bytes.drop offset = bs.flatMap (frame codecs) ++ rest)
    (hn : first + bs.flatten.length < 2 ^ 32) (hts : InRange bs.flatten)
    (hnarrow : ∀ b ∈ bs, Narrow codecs b) (hframes : ∀ b ∈ bs, (frame codecs b).length < 2 ^ 32) :
    List.Forall₂ (Decodes codecs bytes) (metasFrom codecs offset first bs)
      (decodedParts first bs) := by
  induction bs generalizing offset first with
  | nil => exact .nil
  | cons b bs ih =>
    rw [flatMap_cons, append_assoc] at h
    rw [flatten_cons, length_append] at hn
    rw [forall_mem_cons] at hnarrow hframes
    have hb : InRange b := fun l hl ↦ hts l (mem_append_left _ hl)
    have hbs : InRange bs.flatten := fun l hl ↦ hts l (mem_append_right _ hl)
    have hslice : slice bytes offset (offset + (frame codecs b).length) = frame codecs b := by
      rw [slice, h]
      exact take_left' (by omega)
    refine .cons (decodes_metaOf hslice hframes.1 hnarrow.1 hb (by omega)) ?_
    exact ih (drop_after h) (by omega) hbs hnarrow.2 hframes.2

/-- The byte ranges of the blocks follow one another from `start` to `stop`. -/
def Tiles : ℕ → List BlockMeta → ℕ → Prop
  | start, [], stop => start = stop
  | start, m :: rest, stop => m.offset = start ∧ Tiles (start + m.len) rest stop

instance decidableTiles : ∀ start blocks stop, Decidable (Tiles start blocks stop)
  | start, [], stop => inferInstanceAs (Decidable (start = stop))
  | start, m :: rest, stop =>
    have := decidableTiles (start + m.len) rest stop
    inferInstanceAs (Decidable (m.offset = start ∧ Tiles (start + m.len) rest stop))

theorem tiles_metasFrom (bs : List (List (LogLine J))) (offset first : ℕ)
    (hframes : ∀ b ∈ bs, (frame codecs b).length < 2 ^ 32) :
    Tiles offset (metasFrom codecs offset first bs)
      (offset + (bs.flatMap (frame codecs)).length) := by
  induction bs generalizing offset first with
  | nil => rfl
  | cons b bs ih =>
    rw [forall_mem_cons] at hframes
    have hlen : (metaOf codecs offset first b).len = (frame codecs b).length :=
      Nat.mod_eq_of_lt hframes.1
    have hrest := ih (offset + (frame codecs b).length) (first + b.length) hframes.2
    rw [metasFrom, Tiles, hlen, flatMap_cons, length_append, ← Nat.add_assoc]
    exact ⟨rfl, hrest⟩

theorem summarizes_metasFrom (bs : List (List (LogLine J))) (offset first : ℕ)
    (hne : ∀ b ∈ bs, b ≠ []) (hn : ∀ b ∈ bs, b.length < 2 ^ 32) :
    List.Forall₂ SummarizesBlock (metasFrom codecs offset first bs) bs := by
  induction bs generalizing offset first with
  | nil => exact List.Forall₂.nil
  | cons b bs ih =>
    rw [forall_mem_cons] at hne hn
    refine List.Forall₂.cons ?_ (ih _ _ hne.2 hn.2)
    obtain ⟨t, t', hmin, hmax, hsum⟩ := summarizes_statsOf hne.1 hn.1
    simpa only [SummarizesBlock, metaOf, hmin, hmax, Option.getD_some] using hsum

def labelsOf (identity : ChunkIdentity) (lines : List (LogLine J)) : ChunkLabels :=
  { identity with
    startedAt := (statsOf lines).minTs.getD 0
    endedAt := (statsOf lines).maxTs.getD 0
    lineCount := lines.length % 2 ^ 32
    levelMask := (statsOf lines).levelMask
    levelCounts := (statsOf lines).levelCounts }

def footerOf (u : Tables) (xxh3 : Xxh3) (codecs : Codecs J) (identity : ChunkIdentity)
    (lines : List (LogLine J)) (withBloom : Bool) : ChunkFooter where
  labels := labelsOf identity lines
  blocks := metasFrom codecs 0 0 (cut codecs lines)
  bloom := if withBloom then some (buildMessages u xxh3 (lines.map (·.msg))) else none

def bloomSection (footer : ChunkFooter) : Bytes := (footer.bloom.map Bloom.toBytes).getD []

def footerPayload (codecs : Codecs J) (footer : ChunkFooter) : ℕ :=
  (codecs.labelsToVec footer.labels).length + (codecs.indexToVec footer.blocks).length +
    (bloomSection footer).length + trailerLen

def bodyOf (codecs : Codecs J) (lines : List (LogLine J)) : Bytes :=
  (cut codecs lines).flatMap (frame codecs)

def trailerOf (codecs : Codecs J) (bodyLen : ℕ) (footer : ChunkFooter) : Trailer where
  labelsOff := bodyLen + skippableHeaderLen
  labelsLen := (codecs.labelsToVec footer.labels).length % 2 ^ 32
  indexOff := bodyLen + skippableHeaderLen + (codecs.labelsToVec footer.labels).length % 2 ^ 32
  indexLen := (codecs.indexToVec footer.blocks).length % 2 ^ 32
  bloomOff := bodyLen + skippableHeaderLen + (codecs.labelsToVec footer.labels).length % 2 ^ 32 +
    (codecs.indexToVec footer.blocks).length % 2 ^ 32
  bloomLen := (bloomSection footer).length % 2 ^ 32
  crc32 := codecs.crc32 (codecs.labelsToVec footer.labels ++ codecs.indexToVec footer.blocks ++
    bloomSection footer)
  version := formatVersion

def chunkOf (codecs : Codecs J) (body : Bytes) (footer : ChunkFooter) : EncodedChunk where
  bytes := body ++ le 4 skippableMagic ++ le 4 (footerPayload codecs footer) ++
    codecs.labelsToVec footer.labels ++ codecs.indexToVec footer.blocks ++ bloomSection footer ++
    encodeTrailer (trailerOf codecs body.length footer)
  footer := footer
  trailer := trailerOf codecs body.length footer

theorem length_bodyOf (hframes : ∀ b ∈ cut codecs lines, (frame codecs b).length < 2 ^ 32) :
    (bodyOf codecs lines).length ≤ lines.length * (2 ^ 32 - 1) := by
  have hblocks : ∀ bs : List (List (LogLine J)), (∀ b ∈ bs, b ≠ []) →
      (∀ b ∈ bs, (frame codecs b).length < 2 ^ 32) →
      (bs.flatMap (frame codecs)).length ≤ bs.flatten.length * (2 ^ 32 - 1) := by
    intro bs hne hlt
    induction bs with
    | nil => simp
    | cons b bs ih =>
      rw [forall_mem_cons] at hne hlt
      have hpos := length_pos_iff.mpr hne.1
      have hrest := ih hne.2 hlt.2
      simp only [flatMap_cons, flatten_cons, length_append]
      omega
  have h := hblocks (cut codecs lines) (fun _ hb ↦ ne_nil_of_mem_cut hb) hframes
  rwa [flatten_cut] at h

def BloomStored (footer : ChunkFooter) : Prop :=
  bloomSection footer = [] ∧ footer.bloom = none ∨
    bloomSection footer ≠ [] ∧ ∃ bloom, Bloom.fromBytes (bloomSection footer) = .ok bloom ∧
      footer.bloom = some bloom

theorem bloomStored_footerOf (u : Tables) (xxh3 : Xxh3) (codecs : Codecs J)
    (identity : ChunkIdentity) (lines : List (LogLine J)) (withBloom : Bool) :
    BloomStored (footerOf u xxh3 codecs identity lines withBloom) := by
  cases withBloom with
  | false => exact Or.inl ⟨rfl, rfl⟩
  | true => exact Or.inr ⟨cons_ne_nil _ _, _, build_bytes xxh3 _, rfl⟩

structure RoundTrip (codecs : Codecs J) (identity : ChunkIdentity) (lines : List (LogLine J))
    (chunk : EncodedChunk) : Prop where
  trailer : ∀ tail, tail <:+ chunk.bytes → trailerLen ≤ tail.length →
    decodeTrailer tail = .ok chunk.trailer
  footer : decodeFooter codecs (slice chunk.bytes chunk.trailer.footerOffset
    (chunk.trailer.footerOffset + chunk.trailer.footerLen)) chunk.trailer = .ok chunk.footer
  decoded : decodeBlocks codecs chunk.bytes chunk.footer.blocks = .ok (lines.zipIdx.map lineAt)
  tiles : Tiles 0 chunk.footer.blocks (chunk.trailer.footerOffset - skippableHeaderLen)
  labelled : chunk.footer.labels.toChunkIdentity = identity
  labels : SummarizesChunk chunk.footer.labels lines
  blocks : ∃ parts : List (List (LogLine J)), parts.flatten = lines ∧
    List.Forall₂ SummarizesBlock chunk.footer.blocks parts
  combines : Combines chunk.footer.blocks chunk.footer.labels

section ChunkOf

variable {body : Bytes} {footer : ChunkFooter}

theorem decodeTrailer_chunkOf (hfits : Fits (trailerOf codecs body.length footer)) {tail : Bytes}
    (htail : tail <:+ (chunkOf codecs body footer).bytes) (hlen : trailerLen ≤ tail.length) :
    decodeTrailer tail = .ok (chunkOf codecs body footer).trailer := by
  have hsuffix : encodeTrailer (trailerOf codecs body.length footer) <:+ tail := by
    apply suffix_of_suffix_length_le (suffix_append _ _) htail
    rwa [length_encodeTrailer]
  obtain ⟨front, rfl⟩ := hsuffix
  exact decodeTrailer_encodeTrailer hfits front

variable (hfooter : footerPayload codecs footer < 2 ^ 32)
include hfooter

theorem fits_trailerOf {bodyLen : ℕ} (hbody : bodyLen < 2 ^ 64 - 2 ^ 32 - 8) :
    Fits (trailerOf codecs bodyLen footer) := by
  have hcrc := codecs.crc32_lt (codecs.labelsToVec footer.labels ++
    codecs.indexToVec footer.blocks ++ bloomSection footer)
  rw [footerPayload] at hfooter
  refine ⟨?_, ?_, ?_, ?_, ?_, ?_, hcrc, rfl⟩
  all_goals simp only [trailerOf, skippableHeaderLen]; omega

variable (hbloom : BloomStored footer)
include hbloom

theorem sections_trailerOf (bodyLen : ℕ) :
    Sections codecs footer (bloomSection footer) (trailerOf codecs bodyLen footer) := by
  rw [footerPayload] at hfooter
  refine ⟨?_, ?_, ?_, rfl, hbloom⟩
  all_goals exact Nat.mod_eq_of_lt (by omega)

theorem decodeFooter_chunkOf :
    decodeFooter codecs (slice (chunkOf codecs body footer).bytes
      (chunkOf codecs body footer).trailer.footerOffset
      ((chunkOf codecs body footer).trailer.footerOffset +
        (chunkOf codecs body footer).trailer.footerLen)) (chunkOf codecs body footer).trailer =
      .ok footer := by
  have hs := sections_trailerOf hfooter hbloom body.length
  have hfront : (body ++ (le 4 skippableMagic ++ le 4 (footerPayload codecs footer))).length =
      body.length + skippableHeaderLen := by
    simp [skippableHeaderLen]
  have hlen : body.length + skippableHeaderLen + (codecs.labelsToVec footer.labels ++
      (codecs.indexToVec footer.blocks ++ (bloomSection footer ++
        encodeTrailer (trailerOf codecs body.length footer)))).length =
      body.length + skippableHeaderLen + (trailerOf codecs body.length footer).footerLen := by
    obtain ⟨hlabels, hindex, hbits, -, -⟩ := hs
    simp only [trailerOf] at hlabels hindex hbits
    simp only [Trailer.footerLen, trailerOf, length_append, length_encodeTrailer]
    omega
  have hslice := slice_append [] hfront hlen
  rw [← decodeFooter_sections hs]
  rw [← hslice]
  simp only [chunkOf, Trailer.footerOffset, trailerOf, append_assoc, append_nil]

end ChunkOf

/-- What the format can hold: every count, length and time stays within its field. -/
@[mk_iff]
structure Storable (codecs : Codecs J) (lines : List (LogLine J)) : Prop where
  ne_nil : lines ≠ []
  count : lines.length < 2 ^ 32
  times : InRange lines
  columns : ∀ b ∈ cut codecs lines, Narrow codecs b
  frames : ∀ b ∈ cut codecs lines, (frame codecs b).length < 2 ^ 32

section

variable (h : Storable codecs lines)
include h

theorem decodes_chunkOf (footer : ChunkFooter) :
    List.Forall₂ (Decodes codecs (chunkOf codecs (bodyOf codecs lines) footer).bytes)
      (metasFrom codecs 0 0 (cut codecs lines)) (decodedParts 0 (cut codecs lines)) := by
  obtain ⟨rest, hrest⟩ : bodyOf codecs lines <+:
      (chunkOf codecs (bodyOf codecs lines) footer).bytes := by
    simp only [chunkOf, append_assoc]
    exact prefix_append _ _
  have hparts : (cut codecs lines).flatten = lines := flatten_cut lines
  refine decodes_metasFrom _ (by rw [drop_zero, ← hrest, bodyOf]) ?_ ?_ h.columns h.frames
  · rw [hparts, Nat.zero_add]
    exact h.count
  · rw [hparts]
    exact h.times

variable {withBloom : Bool}
  (hfooter : footerPayload codecs (footerOf u xxh3 codecs identity lines withBloom) < 2 ^ 32)
include hfooter

theorem encodeLines_eq :
    encodeLines u xxh3 codecs identity lines withBloom = .ok (chunkOf codecs (bodyOf codecs lines)
        (footerOf u xxh3 codecs identity lines withBloom)) := by
  have he : Encoding u xxh3 codecs identity (cut codecs lines, []) _ :=
    encoding_sealed lines
  obtain ⟨t, t', hmin, hmax, _⟩ := summarizes_statsOf h.ne_nil h.count
  rw [encodeLines, finish]
  generalize (lines.foldl (ChunkEncoder.push u xxh3 codecs) (new identity)).sealCurrentBlock
    codecs = e at he
  have hpos := length_pos_iff.mpr h.ne_nil
  have hlines : (cut codecs lines).flatten ++ [] = lines := by
    rw [append_nil, flatten_cut]
  have htotal := he.totalLines
  have hstats := he.stats
  have hentries := he.bloomEntries
  rw [hlines] at htotal hstats hentries
  have h0 : ¬ lines.length % 2 ^ 32 = 0 := by
    rw [Nat.mod_eq_of_lt h.count]
    omega
  have hbloom : (if withBloom then some (build xxh3 e.bloomEntries) else none) =
      (footerOf u xxh3 codecs identity lines withBloom).bloom := by
    rw [hentries]
    rfl
  have hlabels : { identity with
      startedAt := t
      endedAt := t'
      lineCount := lines.length % 2 ^ 32
      levelMask := (statsOf lines).levelMask
      levelCounts := (statsOf lines).levelCounts } =
        (footerOf u xxh3 codecs identity lines withBloom).labels := by
    simp only [footerOf, labelsOf, hmin, hmax, Option.getD_some]
  have hblocks : e.blockMetas = (footerOf u xxh3 codecs identity lines withBloom).blocks :=
    he.blockMetas
  have hbody : e.body = bodyOf codecs lines := he.body
  simp only [htotal, if_neg h0, hstats, hmin, hmax, he.identity, hlabels, hblocks, hbody, hbloom]
  have hle : ¬ 2 ^ 32 ≤ footerPayload codecs (footerOf u xxh3 codecs identity lines withBloom) := by
    omega
  rw [footerPayload, bloomSection] at hle
  rw [if_neg hle]
  rfl

theorem roundTrip_chunkOf :
    RoundTrip codecs identity lines (chunkOf codecs (bodyOf codecs lines)
      (footerOf u xxh3 codecs identity lines withBloom)) := by
  have hn := h.count
  have hbody : (bodyOf codecs lines).length < 2 ^ 64 - 2 ^ 32 - 8 := by
    have := length_bodyOf h.frames
    omega
  have hparts : (cut codecs lines).flatten = lines := flatten_cut lines
  have hblocks : List.Forall₂ SummarizesBlock (metasFrom codecs 0 0 (cut codecs lines))
      (cut codecs lines) := by
    apply summarizes_metasFrom _ _ _ (fun _ hb ↦ ne_nil_of_mem_cut hb)
    intro b hb
    have hle := (sublist_flatten_of_mem hb).length_le
    rw [hparts] at hle
    omega
  have hlabels : SummarizesChunk (labelsOf identity lines) lines := by
    obtain ⟨t, t', hmin, hmax, hsum⟩ := summarizes_statsOf h.ne_nil hn
    simpa only [SummarizesChunk, labelsOf, hmin, hmax, Option.getD_some] using hsum
  refine ⟨?_, ?_, ?_, ?_, rfl, hlabels, ⟨cut codecs lines, hparts, hblocks⟩, ?_⟩
  · intro tail htail hlen
    exact decodeTrailer_chunkOf (fits_trailerOf hfooter hbody) htail hlen
  · exact decodeFooter_chunkOf hfooter (bloomStored_footerOf ..)
  · refine (decodeBlocks_eq (decodes_chunkOf h _)).trans (congrArg _ ?_)
    rw [flatten_decodedParts, hparts]
  · have htiles := tiles_metasFrom (cut codecs lines) 0 0 h.frames
    rw [Nat.zero_add] at htiles
    exact htiles
  · exact combines hblocks (by rwa [hparts])

end

theorem encodeLines_round_trip (u : Tables) (xxh3 : Xxh3) (codecs : Codecs J)
    (identity : ChunkIdentity) (lines : List (LogLine J)) (withBloom : Bool)
    (hne : lines ≠ []) (hn : lines.length < 2 ^ 32) (hts : InRange lines)
    (hnarrow : ∀ b ∈ cut codecs lines, Narrow codecs b)
    (hframes : ∀ b ∈ cut codecs lines, (frame codecs b).length < 2 ^ 32)
    (hfooter : footerPayload codecs (footerOf u xxh3 codecs identity lines withBloom) < 2 ^ 32) :
    ∃ chunk, encodeLines u xxh3 codecs identity lines withBloom = .ok chunk ∧
      RoundTrip codecs identity lines chunk := by
  have hstorable : Storable codecs lines := ⟨hne, hn, hts, hnarrow, hframes⟩
  exact ⟨_, encodeLines_eq hstorable hfooter, roundTrip_chunkOf hstorable hfooter⟩

def webIdentity : ChunkIdentity := ⟨1, none, "", "web", "c1", none, none, none⟩

def hello : LogLine ℕ :=
  ⟨5, .stdout, .info, ['h', 'i'], some 3, "c1", "web", "", 1, none, none, none, none⟩

theorem cut_hello : cut plainCodecs [hello] = [[hello]] := rfl

theorem storable_hello : Storable plainCodecs [hello] := by
  refine ⟨cons_ne_nil _ _, by decide, forall_mem_singleton.mpr (by decide), ?_, ?_⟩
  all_goals rw [cut_hello, forall_mem_singleton]
  · exact ⟨by decide, by decide⟩
  · decide

def greetings : List (LogLine ℕ) :=
  [hello, { hello with ts := 3, stream := .stderr, level := .error, msg := [], fields := none },
    { hello with ts := 9, msg := ['b', 'y', 'e'], fields := some 0 }]

theorem cut_greetings : cut plainCodecs greetings = [greetings] := rfl

theorem encodeLines_round_trip_greetings :
    ∃ chunk, encodeLines asciiTables (fun _ seed ↦ seed) plainCodecs webIdentity greetings true =
      .ok chunk ∧ RoundTrip plainCodecs webIdentity greetings chunk := by
  apply encodeLines_round_trip
  · exact cons_ne_nil _ _
  · decide
  · simp only [InRange]
    decide
  · rw [cut_greetings, forall_mem_singleton]
    exact ⟨by decide, by decide⟩
  · rw [cut_greetings, forall_mem_singleton]
    decide
  · decide +kernel

theorem blocks_end_before_footer_offset :
    InRange [hello] ∧ (∀ b ∈ cut plainCodecs [hello], Narrow plainCodecs b) ∧
      ∃ chunk, encodeLines asciiTables (fun _ seed ↦ seed) plainCodecs webIdentity [hello] false =
        .ok chunk ∧ ¬ Tiles 0 chunk.footer.blocks chunk.trailer.footerOffset := by
  refine ⟨storable_hello.times, storable_hello.columns, _,
    encodeLines_eq storable_hello (by decide +kernel), ?_⟩
  decide +kernel

end Temps.LogAggregator.Chunk.ChunkRoundTrip
