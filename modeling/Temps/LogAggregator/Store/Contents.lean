import Temps.Lib.Keyset
import Temps.LogAggregator.Services.CompactorView
import Temps.LogAggregator.Store.ChunkStore

namespace Temps.LogAggregator.Store

open Lib.Fallible Lib.Keyset Lib.Octets Lib.Unicode Lib.Utf8 Chunk Chunk.BlockRoundTrip List
open LogAggregator.Types Chunk.ChunkRoundTrip Chunk.Summary Services.Compactor ManifestRepo
open TextFilter

variable {J : Type}

theorem and_levelBit {mask : ℕ} {level : LogLevel} :
    mask &&& levelBit level ≠ 0 ↔ mask.testBit (levelIndex level) := by
  rw [levelBit, Nat.one_shiftLeft, Nat.and_two_pow]
  simp

theorem testBit_foldl (levels : List LogLevel) (mask : ℕ) (level : LogLevel) :
    ((levels.map levelBit).foldl (· ||| ·) mask).testBit (levelIndex level) =
      (mask.testBit (levelIndex level) || decide (level ∈ levels)) := by
  induction levels generalizing mask with
  | nil => simp
  | cons l levels ih =>
    rw [map_cons, foldl_cons, ih, Nat.testBit_or, testBit_levelBit, Bool.or_assoc]
    simp

theorem testBit_levelMaskFor (levels : List LogLevel) (level : LogLevel) :
    (levelMaskFor levels).testBit (levelIndex level) =
      (levels.isEmpty || decide (level ∈ levels)) := by
  rw [levelMaskFor]
  split
  · rename_i hempty
    rw [hempty]
    cases level <;> rfl
  · rename_i hne
    rw [testBit_foldl]
    simp [hne]

namespace ChunkStore

section KeepNewest

variable {α : Type} (limit : ℕ)

theorem keepNewest_eq (l : List α) : keepNewest limit l = (l.reverse.take limit).reverse := by
  rw [keepNewest, take_reverse, reverse_reverse]

theorem keepNewest_append {a b : List α} (h : limit ≤ b.length) :
    keepNewest limit (a ++ b) = keepNewest limit b := by
  rw [keepNewest_eq, keepNewest_eq, reverse_append,
    take_append_of_le_length (by rwa [length_reverse])]

theorem keepNewest_inner (a b c : List α) :
    keepNewest limit (a ++ (keepNewest limit b ++ c)) = keepNewest limit (a ++ (b ++ c)) := by
  have hlen : (b.reverse.take limit).take (limit - c.length) =
      b.reverse.take (limit - c.length) := by
    rw [take_take, Nat.min_eq_left (Nat.sub_le ..)]
  simp only [keepNewest_eq, reverse_append, reverse_reverse, append_assoc,
    take_append, length_reverse, length_take]
  congr 3
  omega

theorem newest_keepNewest {K : Type} [LinearOrder K] {key : α → K} {lines : List α}
    (h : lines.Pairwise fun a b ↦ key a < key b) :
    Newest key limit lines (keepNewest limit lines) (lines.take (lines.length - limit)) where
  perm := perm_append_comm.trans (.of_eq (take_append_drop ..))
  full hne := by
    have hpos := length_pos_iff.mpr hne
    rw [length_take] at hpos
    rw [keepNewest, length_drop]
    omega
  newer a ha b hb := by
    rw [← take_append_drop (lines.length - limit) lines, pairwise_append] at h
    exact h.2.2 b hb a ha

end KeepNewest

section Passing

variable (u : Tables) (filter : LineFilter J)

def passes (r : LogLineRecord J) : Bool :=
  !(r.timestamp < filter.start || filter.stop < r.timestamp) &&
  !(filter.levelMask &&& levelBit r.level == 0) &&
  filter.keyAllowed r.key &&
  textMatches u filter.needle r.message &&
  filter.attrsMatch r.fields

variable {u filter} {r : LogLineRecord J}

theorem passes_iff : passes u filter r ↔
    (filter.start ≤ r.timestamp ∧ r.timestamp ≤ filter.stop) ∧
      filter.levelMask.testBit (levelIndex r.level) ∧ filter.keyAllowed r.key ∧
        textMatches u filter.needle r.message ∧ filter.attrsMatch r.fields := by
  rw [← and_levelBit]
  simp [passes, and_assoc]

theorem window_of_passes (h : passes u filter r) :
    filter.start ≤ r.timestamp ∧ r.timestamp ≤ filter.stop := (passes_iff.mp h).1

theorem level_of_passes (h : passes u filter r) :
    filter.levelMask.testBit (levelIndex r.level) := (passes_iff.mp h).2.1

theorem masks_meet (h : passes u filter r) {mask : ℕ}
    (hmask : mask.testBit (levelIndex r.level)) : mask &&& filter.levelMask ≠ 0 := by
  intro hzero
  have hbit := congrArg (Nat.testBit · (levelIndex r.level)) hzero
  simp [hmask, level_of_passes h] at hbit

end Passing

def headRecords (labels : ChunkLabels) (lines : List (LogLine J)) : List (LogLineRecord J) :=
  lines.zipIdx.map fun p ↦ record labels (headLine p.1 p.2) (LogLineKey.headLineId p.2)

def sealedRecords (m : Manifest) (lines : List (DecodedLine J)) : List (LogLineRecord J) :=
  lines.map fun line ↦ record m.labels line (LogLineKey.sealedLineId m.seq line.lineIndex)

theorem accepted_eq (u : Tables) (filter : LineFilter J) (m : Manifest)
    (lines : List (DecodedLine J)) :
    accepted u filter m.labels m.seq lines = (sealedRecords m lines).filter (passes u filter) := by
  rw [sealedRecords, filter_map]
  rfl

theorem scanHead_eq (u : Tables) (filter : LineFilter J) (labels : ChunkLabels)
    (pairs : List (LogLine J × ℕ)) (found : List (LogLineRecord J)) :
    scanHead u filter labels pairs found = found ++ ((pairs.map fun p ↦
      record labels (headLine p.1 p.2) (LogLineKey.headLineId p.2)).filter
        (passes u filter)).take (filter.limit - found.length) := by
  induction pairs generalizing found with
  | nil => simp [scanHead]
  | cons p pairs ih =>
    rw [scanHead, map_cons, filter_cons]
    have hsame : accepts u filter labels (headLine p.1 p.2) (LogLineKey.headLineId p.2) =
      passes u filter (record labels (headLine p.1 p.2) (LogLineKey.headLineId p.2)) := rfl
    rw [hsame]
    split
    · rename_i hfull
      rw [Nat.sub_eq_zero_of_le hfull, take_zero, append_nil]
    · split
      · obtain ⟨n, hn⟩ : ∃ n, filter.limit - found.length = n + 1 :=
          ⟨filter.limit - found.length - 1, by omega⟩
        rw [ih, hn, length_append, length_singleton, append_assoc, singleton_append]
        congr 3
        omega
      · exact ih found

theorem scanHead_iterRev (u : Tables) (filter : LineFilter J) (labels : ChunkLabels)
    (head : Head J) : scanHead u filter labels head.iterRev [] =
      (keepNewest filter.limit ((headRecords labels head.lines).filter (passes u filter))).reverse := by
  rw [scanHead_eq, keepNewest_eq, reverse_reverse, Head.iterRev, map_reverse,
    filter_reverse]
  rfl

/-- What the object of a row holds: the lines of a chunk of either version, and its bloom filter. -/
inductive Holds (store : ChunkStore J) (m : Manifest) :
    List (DecodedLine J) → Option Bloom → Prop
  | v1 {raw : Bytes} {lines : List (DecodedLine J)} (hversion : m.formatVersion < 2)
      (hobject : store.objects.lookup m.storageKey = some raw)
      (hdecode : store.decodeV1 raw = .ok lines) : Holds store m lines none
  | v2 {identity : ChunkIdentity} {source : List (LogLine J)} {withBloom : Bool}
      {chunk : EncodedChunk} (hversion : ¬ m.formatVersion < 2)
      (hstorable : Storable store.platform.codecs source)
      (hfooter : footerPayload store.platform.codecs (footerOf store.platform.tables
        store.platform.xxh3 store.platform.codecs identity source withBloom) < 2 ^ 32)
      (hchunk : chunk = chunkOf store.platform.codecs (bodyOf store.platform.codecs source)
        (footerOf store.platform.tables store.platform.xxh3 store.platform.codecs identity source
          withBloom))
      (hobject : store.objects.lookup m.storageKey = some chunk.bytes)
      (hoffset : m.footerOffset = some chunk.trailer.footerOffset)
      (hlen : m.footerLen = some chunk.trailer.footerLen) :
      Holds store m (source.zipIdx.map lineAt) chunk.footer.bloom

section Blocks

variable {store : ChunkStore J} {m : Manifest} {filter : LineFilter J}

/-- A block of a chunk is read as far as a filter lets it, and its summary covers its lines. -/
structure BlockRead (store : ChunkStore J) (m : Manifest) (block : BlockMeta)
    (lines : List (DecodedLine J)) : Prop where
  range : ∃ compressed, readChunkRange store.objects m.storageKey block.offset
      (block.offset + block.len) = .ok compressed ∧
    ∀ filter : BlockFilter, decodeBlock store.platform.codecs compressed block filter =
      .ok (lines.filter fun l ↦ filter.matchesLine l.ts l.level)
  times : ∀ l ∈ lines, block.firstTs ≤ l.ts ∧ l.ts ≤ block.lastTs
  levels : ∀ l ∈ lines, block.levelMask.testBit (levelIndex l.level) = true

theorem mayMatch_of_passes {block : BlockMeta} {lines : List (DecodedLine J)}
    (h : BlockRead store m block lines) {r : LogLineRecord J} (hr : r ∈ sealedRecords m lines)
    (hpass : passes store.platform.tables filter r) : mayMatch filter block := by
  obtain ⟨l, hl, rfl⟩ := mem_map.mp hr
  obtain ⟨hfirst, hlast⟩ := h.times l hl
  obtain ⟨hstart, hstop⟩ := window_of_passes hpass
  have hmask := masks_meet hpass (h.levels l hl)
  simp only [mayMatch, Bool.and_eq_true, decide_eq_true_eq]
  exact ⟨⟨hstart.trans hlast, hfirst.trans hstop⟩, hmask⟩

theorem matchesLine_of_passes {l : DecodedLine J} (seq : ℕ)
    (h : passes store.platform.tables filter
      (record m.labels l (LogLineKey.sealedLineId seq l.lineIndex))) :
    filter.blockFilter.matchesLine l.ts l.level := by
  have hwindow := window_of_passes h
  have hlevel := and_levelBit.mpr (level_of_passes h)
  simp only [record] at hwindow hlevel
  simp [BlockFilter.matchesLine, LineFilter.blockFilter, hwindow.1, hwindow.2, hlevel]

theorem accepted_filter (lines : List (DecodedLine J)) :
    accepted store.platform.tables filter m.labels m.seq
        (lines.filter fun l ↦ filter.blockFilter.matchesLine l.ts l.level) =
      (sealedRecords m lines).filter (passes store.platform.tables filter) := by
  rw [accepted_eq, sealedRecords, sealedRecords, filter_map, filter_map, filter_filter]
  congr 1
  refine filter_congr fun l _ ↦ ?_
  cases hpass : passes store.platform.tables filter
      (record m.labels l (LogLineKey.sealedLineId m.seq l.lineIndex)) with
  | false => simp [Function.comp, hpass]
  | true => simp [Function.comp, hpass, matchesLine_of_passes m.seq hpass]

theorem scanBlocks_eq (filter : LineFilter J) {blocks : List BlockMeta}
    {parts : List (List (DecodedLine J))}
    (h : List.Forall₂ (BlockRead store m) blocks parts) (found : List (LogLineRecord J)) :
    ∃ out, store.scanBlocks filter m blocks found = .ok out ∧
      keepNewest filter.limit out = keepNewest filter.limit
        ((sealedRecords m parts.reverse.flatten).filter (passes store.platform.tables filter) ++
          found) := by
  induction h generalizing found with
  | nil => exact ⟨found, rfl, by simp [sealedRecords]⟩
  | @cons block part blocks parts hread _ ih =>
    have hparts : sealedRecords m (part :: parts).reverse.flatten =
        sealedRecords m parts.reverse.flatten ++ sealedRecords m part := by
      simp [sealedRecords]
    rw [scanBlocks, hparts, filter_append]
    split
    · rename_i hfull
      exact ⟨found, rfl, (keepNewest_append _ hfull).symm⟩
    · split
      · rename_i hskip
        have hnone : (sealedRecords m part).filter (passes store.platform.tables filter) = [] := by
          refine filter_eq_nil_iff.mpr fun r hr hpass ↦ ?_
          simp [mayMatch_of_passes hread hr hpass] at hskip
        rw [hnone, append_nil]
        exact ih found
      · obtain ⟨compressed, hrange, hdecode⟩ := hread.range
        rw [hrange, ok_bind, hdecode, ok_bind, accepted_filter]
        obtain ⟨out, hout, hkeep⟩ := ih (keepNewest filter.limit
          ((sealedRecords m part).filter (passes store.platform.tables filter)) ++ found)
        refine ⟨out, hout, hkeep.trans ?_⟩
        rw [keepNewest_inner, append_assoc]

end Blocks

section Chunks

variable {store : ChunkStore J} {m : Manifest} {filter : LineFilter J}

theorem scanSealed_eq {lines : List (DecodedLine J)} {bloom : Option Bloom}
    (h : store.Holds m lines bloom) : store.scanSealed filter m =
      .ok (if store.bloomPasses filter bloom then keepNewest filter.limit
        ((sealedRecords m lines).filter (passes store.platform.tables filter)) else []) := by
  cases h with
  | v1 hversion hobject hdecode =>
    have hpass : store.bloomPasses filter none := by simp [bloomPasses]
    rw [scanSealed, if_pos hversion, readChunk, hobject, ok_bind, hdecode, ok_bind, hpass,
      accepted_eq]
    rfl
  | @v2 identity source withBloom chunk hversion hstorable hfooter hchunk hobject hoffset hlen =>
    have hrt := roundTrip_chunkOf hstorable hfooter
    have hat := footerAt_chunkOf (bodyOf store.platform.codecs source) hfooter
    rw [← hchunk] at hrt hat
    have hread : store.footer m = .ok chunk.footer := by
      rw [footer, hoffset, hlen]
      simp only
      rw [readChunkRange_eq hobject, ok_bind, decodeTrailer_footer hrt hat, ok_bind, hrt.footer]
    have hblocks : chunk.footer.blocks =
        metasFrom store.platform.codecs 0 0 (cut store.platform.codecs source) := by
      rw [hchunk]
      rfl
    have hreads : List.Forall₂ (BlockRead store m) chunk.footer.blocks
        (decodedParts 0 (cut store.platform.codecs source)) := by
      have hdecodes := decodes_chunkOf hstorable (footerOf store.platform.tables
        store.platform.xxh3 store.platform.codecs identity source withBloom)
      rw [← hchunk, ← hblocks] at hdecodes
      exact hdecodes.imp fun block lines h ↦
        ⟨⟨_, readChunkRange_eq hobject .., h.decode⟩, h.times, h.levels⟩
    obtain ⟨out, hout, hkeep⟩ := scanBlocks_eq filter
      (forall₂_reverse_iff.mpr hreads) []
    rw [reverse_reverse, flatten_decodedParts, flatten_cut, append_nil] at hkeep
    rw [scanSealed, if_neg hversion, hread, ok_bind]
    cases hpass : store.bloomPasses filter chunk.footer.bloom with
    | false => rfl
    | true =>
      simp only [hout, ok_bind, hkeep]
      rfl

end Chunks

/-- The lines and the bloom filters of the live rows, as their objects hold them. A chunk has lines,
the times of its row are in order and the level mask covers the lines, as the encoder leaves them. -/
structure Contents (store : ChunkStore J) where
  lines : Manifest → List (DecodedLine J)
  bloom : Manifest → Option Bloom
  holds : ∀ m ∈ store.manifests.liveRows, store.Holds m (lines m) (bloom m)
  nonempty : ∀ m ∈ store.manifests.liveRows, lines m ≠ []
  ordered : ∀ m ∈ store.manifests.liveRows, m.labels.startedAt ≤ m.labels.endedAt
  levels : ∀ m ∈ store.manifests.liveRows, ∀ line ∈ lines m,
    m.labels.levelMask.testBit (levelIndex line.level) = true

namespace Contents

variable {store : ChunkStore J} (contents : store.Contents)

def records : Candidate → List (LogLineRecord J)
  | .sealed m => sealedRecords m (contents.lines m)
  | .head labels => ((store.snapshot labels.containerId).map fun head ↦
      headRecords labels head.lines).getD []

def sources (store : ChunkStore J) : List Candidate :=
  store.manifests.liveRows.map .sealed ++
    (store.heads.filterMap Head.summaryLabels).map .head

def all : List (LogLineRecord J) := (sources store).flatMap contents.records

end Contents

variable (u : Tables) (query : LogQuery J)

def selects : Candidate → Bool
  | .sealed m =>
    labelsMatch m.labels query && query.chunkSeqs.all fun seqs ↦ decide ((m.seq : ℤ) ∈ seqs)
  | .head labels => labelsMatch labels query

def wanted (r : LogLineRecord J) : Bool :=
  query.startTime ≤ r.timestamp && r.timestamp ≤ query.endTime &&
  (query.levels.isEmpty || decide (r.level ∈ query.levels)) &&
  textMatches u (needleOf u query.text) r.message &&
  query.attrs.all fun p ↦ p r.fields

def Contents.expected {store : ChunkStore J} (contents : store.Contents) :
    List (LogLineRecord J) :=
  ((Contents.sources store).filter (selects query)).flatMap fun c ↦
    (contents.records c).filter (wanted store.platform.tables query)

variable {u query} {xxh3 : Xxh3} {r : LogLineRecord J}

theorem wanted_iff : wanted u query r ↔
    (query.startTime ≤ r.timestamp ∧ r.timestamp ≤ query.endTime) ∧
      (levelMaskFor query.levels).testBit (levelIndex r.level) ∧
        textMatches u (needleOf u query.text) r.message ∧ (query.attrs.all fun p ↦ p r.fields) := by
  rw [testBit_levelMaskFor]
  simp [wanted, and_assoc]

theorem stop_compile {key : LogLineKey} (hkey : ∀ b, query.before = some b → key < b) :
    key.timestamp ≤ (LineFilter.compile u xxh3 query).stop ↔ key.timestamp ≤ query.endTime := by
  simp only [LineFilter.compile]
  cases hb : query.before with
  | none => rfl
  | some b =>
    have hts := LogLineKey.timestamp_le (hkey b hb).le
    simp [hts]

theorem passes_compile : passes u (LineFilter.compile u xxh3 query) r ↔
    wanted u query r ∧ ∀ b, query.before = some b → r.key < b := by
  have hallowed : (LineFilter.compile u xxh3 query).keyAllowed r.key ↔
      ∀ b, query.before = some b → r.key < b := by
    simp [LineFilter.keyAllowed, LineFilter.compile, Option.all_eq_true]
  rw [passes_iff, wanted_iff, hallowed]
  constructor
  · rintro ⟨⟨hstart, hstop⟩, hlevel, hkey, hrest⟩
    exact ⟨⟨⟨hstart, (stop_compile hkey).mp hstop⟩, hlevel, hrest⟩, hkey⟩
  · rintro ⟨⟨⟨hstart, hend⟩, hlevel, hrest⟩, hkey⟩
    exact ⟨⟨hstart, (stop_compile hkey).mpr hend⟩, hlevel, hkey, hrest⟩

end ChunkStore

end Temps.LogAggregator.Store
