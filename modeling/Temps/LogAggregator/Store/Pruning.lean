import Temps.LogAggregator.Store.Contents

namespace Temps.LogAggregator.Store

open Lib.Fallible Lib.Octets Lib.Unicode Chunk Chunk.ChunkRoundTrip Chunk.Summary ChunkStore
open LogAggregator.Types Chunk.ChunkEncoder ManifestRepo Services.Compactor List

variable {J : Type} {codecs : Codecs J} {start stop : ℤ} {levels : List LogLevel}
  {line : DecodedLine J}

/-- The line filter of a query that asks for times and levels only. -/
def window (start stop : ℤ) (levels : List LogLevel) : LineFilter J where
  start := start
  stop := stop
  levelMask := levelMaskFor levels
  needle := none
  needleEntries := []
  before := none
  limit := 1
  attrs := []

def wanted (start stop : ℤ) (levels : List LogLevel) (line : DecodedLine J) : Bool :=
  (window start stop levels : LineFilter J).blockFilter.matchesLine line.ts line.level

def decodePruned (codecs : Codecs J) (bytes : Bytes) (filter : LineFilter J) :
    List BlockMeta → Except LogAggregatorError (List (DecodedLine J))
  | [] => .ok []
  | m :: rest =>
    if mayMatch filter m then do
      let lines ← decodeBlock codecs (slice bytes m.offset (m.offset + m.len)) m filter.blockFilter
      let more ← decodePruned codecs bytes filter rest
      return lines ++ more
    else decodePruned codecs bytes filter rest

/-- Skipping blocks and filtering while decoding gives what filtering afterwards gives, and a chunk
whose row the planner passes over for its times or its levels has nothing to give. -/
structure PrunesExactly (codecs : Codecs J) (chunk : EncodedChunk) (row : Manifest) : Prop where
  decoded : ∀ start stop levels, ∃ lines,
    decodeBlocks codecs chunk.bytes chunk.footer.blocks = .ok lines ∧
      decodePruned codecs chunk.bytes (window start stop levels) chunk.footer.blocks =
        .ok (lines.filter (wanted start stop levels))
  skipped : ∀ start stop levels lines,
    decodeBlocks codecs chunk.bytes chunk.footer.blocks = .ok lines →
      (timeCondition row start stop && levelCondition row levels) = false →
        ∀ line ∈ lines, wanted start stop levels line = false

theorem levelMaskFor_ne_zero (levels : List LogLevel) : levelMaskFor levels ≠ 0 := by
  intro hzero
  have hbit := testBit_levelMaskFor levels
  cases levels with
  | nil => exact absurd hzero (by decide)
  | cons level levels => simpa [hzero] using hbit level

theorem wanted_iff : wanted start stop levels line ↔
    (start ≤ line.ts ∧ line.ts ≤ stop) ∧ levelMaskFor levels &&& levelBit line.level ≠ 0 := by
  have hmask := levelMaskFor_ne_zero levels
  simp only [wanted, BlockFilter.matchesLine, LineFilter.blockFilter, window]
  grind

theorem masks_overlap {mask : ℕ} (h : wanted start stop levels line)
    (hmask : mask.testBit (levelIndex line.level)) : mask &&& levelMaskFor levels ≠ 0 := by
  intro hzero
  have hbit := congrArg (Nat.testBit · (levelIndex line.level)) hzero
  simp [hmask, and_levelBit.mp (wanted_iff.mp h).2] at hbit

theorem decodePruned_eq {bytes : Bytes} {ms : List BlockMeta} {parts : List (List (DecodedLine J))}
    (h : List.Forall₂ (Decodes codecs bytes) ms parts) :
    decodePruned codecs bytes (window start stop levels) ms =
      .ok (parts.flatten.filter (wanted start stop levels)) := by
  induction h with
  | nil => rfl
  | @cons m lines ms parts hm _ ih =>
    rw [decodePruned, flatten_cons, filter_append]
    split
    case isTrue =>
      rw [hm.decode, ih]
      rfl
    case isFalse hskip =>
      -- a wanted line would make the block match
      have hnone : lines.filter (wanted start stop levels) = [] := by
        refine filter_eq_nil_iff.mpr fun line hline hwanted ↦ hskip ?_
        obtain ⟨hfirst, hlast⟩ := hm.times line hline
        obtain ⟨hstart, hstop⟩ := (wanted_iff.mp hwanted).1
        simp only [mayMatch, Bool.and_eq_true, decide_eq_true_eq]
        exact ⟨⟨hstart.trans hlast, hfirst.trans hstop⟩,
          masks_overlap hwanted (hm.levels line hline)⟩
      rw [hnone]
      exact ih

theorem skipped_row {m : ChunkMeta} {lines : List (LogLine J)} {seq : ℕ}
    (h : SummarizesChunk m.labels lines)
    (hmiss : (timeCondition (m.row seq) start stop && levelCondition (m.row seq) levels) = false) :
    ∀ line ∈ lines.zipIdx.map lineAt, wanted start stop levels line = false := by
  intro line hline
  refine Bool.eq_false_iff.mpr fun hwanted ↦ ?_
  obtain ⟨p, hp, rfl⟩ := mem_map.mp hline
  have hmem := fst_mem_of_mem_zipIdx hp
  obtain ⟨hstart, hstop⟩ := (wanted_iff.mp hwanted).1
  have hfirst := h.first.2 ⟨p.1, hmem, rfl⟩
  have hlast := h.last.2 ⟨p.1, hmem, rfl⟩
  have hlevel : m.labels.levelMask &&& levelMaskFor levels ≠ 0 := by
    refine masks_overlap hwanted ?_
    rw [h.levelMask]
    exact testBit_maskOf hmem
  -- the columns of the row and the parameters of the query are cut off alike
  have htime : column m.labels.startedAt ≤ column stop ∧ column start ≤ column m.labels.endedAt :=
    ⟨column_mono (hfirst.trans hstop), column_mono (hstart.trans hlast)⟩
  simp [timeCondition, levelCondition, ChunkMeta.row, htime, hlevel] at hmiss

/-- Pruning is exact for every chunk of the encoder and every row stored for it. -/
theorem pruning_exact (u : Tables) (xxh3 : Xxh3) (codecs : Codecs J) (identity : ChunkIdentity)
    (lines : List (LogLine J)) (withBloom : Bool) (h : Storable codecs lines)
    (hfooter : footerPayload codecs (footerOf u xxh3 codecs identity lines withBloom) < 2 ^ 32) :
    ∃ chunk, encodeLines u xxh3 codecs identity lines withBloom = .ok chunk ∧
      ∀ id key seq, PrunesExactly codecs chunk ((chunkMeta id key chunk).row seq) := by
  have hround := roundTrip_chunkOf h hfooter
  have hblocks := decodes_chunkOf h (footerOf u xxh3 codecs identity lines withBloom)
  refine ⟨_, encodeLines_eq h hfooter, fun id key seq ↦
    ⟨fun start stop levels ↦ ⟨_, decodeBlocks_eq hblocks, decodePruned_eq hblocks⟩,
      fun start stop levels found hfound ↦ ?_⟩⟩
  obtain rfl := Except.ok.inj (hround.decoded.symm.trans hfound)
  exact skipped_row hround.labels

theorem pruning_exact_hello :
    ∃ chunk, encodeLines asciiTables (fun _ seed ↦ seed) plainCodecs webIdentity [hello] false =
      .ok chunk ∧ ∀ id key seq, PrunesExactly plainCodecs chunk ((chunkMeta id key chunk).row seq) :=
  pruning_exact asciiTables _ plainCodecs webIdentity [hello] false storable_hello
    (by decide +kernel)

end Temps.LogAggregator.Store
