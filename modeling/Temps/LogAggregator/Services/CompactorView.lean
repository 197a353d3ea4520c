import Temps.LogAggregator.Chunk.ChunkRoundTrip
import Temps.LogAggregator.Services.Compactor

namespace Temps.LogAggregator.Services.Compactor

open Lib.Fallible Lib.Octets Chunk Chunk.ChunkRoundTrip Chunk.FooterRoundTrip List
open LogAggregator.Types Store.ManifestRepo

variable {J : Type} {c : CompactorService J}

/-- A stored line as a reader sees it, wherever it is stored. -/
structure Line (J : Type) where
  containerId : String
  ts : ℤ
  level : LogLevel
  stream : LogStream
  message : Text
  fields : Option J
  deriving DecidableEq

def lineOf (containerId : String) (l : DecodedLine J) : Line J :=
  ⟨containerId, l.ts, l.level, l.stream, l.message, l.fields⟩

def decodedOf (c : CompactorService J) (objects : Objects) (m : Manifest) : List (DecodedLine J) :=
  match readAllLines c objects m with
  | .ok lines => lines
  | .error _ => []

def linesOf (c : CompactorService J) (objects : Objects) (m : Manifest) : List (Line J) :=
  (decodedOf c objects m).map (lineOf m.labels.containerId)

def visible (c : CompactorService J) (w : World) : List (Line J) :=
  w.manifests.liveRows.flatMap (linesOf c w.objects)

theorem lookup_filter_ne (objects : Objects) (key other : Text) :
    (objects.filter fun o ↦ o.1 ≠ key).lookup other =
      if other = key then none else objects.lookup other := by
  induction objects with
  | nil => simp
  | cons o objects ih =>
    rw [filter_cons, lookup_cons]
    by_cases ho : o.1 = key
    · rw [if_neg (by simpa using ho), ih]
      split
      · rfl
      · rw [beq_false_of_ne fun h ↦ ‹other ≠ key› (h.trans ho)]
    · rw [if_pos (by simpa using ho), lookup_cons, ih]
      by_cases hother : other = o.1
      · simp [hother, ho]
      · rw [beq_false_of_ne hother]

theorem lookup_deleteObject (objects : Objects) (key other : Text) :
    (deleteObject objects key).lookup other =
      if other = key then none else objects.lookup other := lookup_filter_ne objects key other

theorem lookup_writeObject (objects : Objects) (key other : Text) (bytes : Bytes) :
    (writeObject objects key bytes).lookup other =
      if other = key then some bytes else objects.lookup other := by
  rw [writeObject, lookup_cons, lookup_filter_ne]
  by_cases h : other = key
  · simp only [beq_iff_eq.mpr h, if_pos h]
  · simp only [beq_false_of_ne h, if_neg h]

def Same (rows : List Manifest) (objects objects' : Objects) : Prop :=
  ∀ m ∈ rows, objects'.lookup m.storageKey = objects.lookup m.storageKey

variable {objects objects' : Objects} {rows : List Manifest} {key : Text} {lines : List (LogLine J)}
  {identity : ChunkIdentity} {m : Manifest}

theorem readAllLines_congr (h : objects'.lookup m.storageKey = objects.lookup m.storageKey) :
    readAllLines c objects' m = readAllLines c objects m := by
  simp only [readAllLines, readChunkRange, readChunk, h]

theorem linesOf_congr (h : Same rows objects objects') :
    rows.flatMap (linesOf c objects') = rows.flatMap (linesOf c objects) := by
  apply flatMap_congr
  intro m hm
  rw [linesOf, linesOf, decodedOf, decodedOf, readAllLines_congr (h m hm)]

theorem same_writeObject (h : ∀ m ∈ rows, m.storageKey ≠ key) (objects : Objects) (bytes : Bytes) :
    Same rows objects (writeObject objects key bytes) := by
  intro m hm
  rw [lookup_writeObject, if_neg (h m hm)]

theorem same_deleteObject (h : ∀ m ∈ rows, m.storageKey ≠ key) (objects : Objects) :
    Same rows objects (deleteObject objects key) := by
  intro m hm
  rw [lookup_deleteObject, if_neg (h m hm)]

theorem Same.trans {o o' o'' : Objects} (h : Same rows o o') (h' : Same rows o' o'') :
    Same rows o o'' := fun m hm ↦ (h' m hm).trans (h m hm)

theorem linesOf_missing (h : objects.lookup m.storageKey = none) : linesOf c objects m = [] := by
  have hread : ∀ lines, readAllLines c objects m ≠ .ok lines := by
    intro lines hlines
    revert hlines
    fun_cases readAllLines c objects m
    case case1 =>
      rw [readChunk, h]
      nofun
    case case2 =>
      intro hlines
      obtain ⟨footerBytes, hfooter, hrest⟩ := bind_eq_ok.mp hlines
      rw [readChunkRange] at hfooter
      split at hfooter
      · obtain rfl := Except.ok.inj hfooter
        cases hrest
      · rw [readChunk, h] at hfooter
        cases hfooter
    case case3 => nofun
  rw [linesOf, decodedOf]
  cases hr : readAllLines c objects m with
  | error e => rfl
  | ok lines => exact absurd hr (hread lines)

section Table

variable {t : Table}

theorem liveRows_markDeleted (now : ℤ) (ids : List ℕ) :
    (t.markDeleted now ids).liveRows = t.liveRows.filter fun m ↦ m.id ∉ ids := by
  have hlive : ∀ m, (Table.tombstone now ids m).live = (decide (m.id ∉ ids) && m.live) := by
    intro m
    rw [Table.tombstone]
    split
    case isTrue hboth => simp [hboth, Manifest.live]
    case isFalse hnot => grind
  rw [Table.liveRows, Table.markDeleted, filter_map, Table.liveRows, filter_filter]
  simp only [Function.comp_def, hlive]
  refine (map_congr_left fun m hm ↦ if_neg fun hboth ↦ ?_).trans (map_id _)
  simp [hboth.1] at hm

theorem liveRows_hardDelete (ids : List ℕ) : (t.hardDelete ids).liveRows = t.liveRows := by
  rw [Table.liveRows, Table.hardDelete, filter_filter]
  apply filter_congr
  intro m _
  cases m.live <;> simp

theorem insert_cases {m : ChunkMeta} {seq : ℕ} {t' : Table} (h : t.insert m = .ok (seq, t')) :
    (t'.liveRows = t.liveRows ∧ ∃ row ∈ t.rows, row.indexed ∧ row.storageKey = m.storageKey) ∨
      (t'.liveRows = t.liveRows ++ [m.row t.nextSeq] ∧ m.id ∉ t.rows.map Manifest.id) := by
  rw [Table.insert] at h
  cases hc : t.conflict m with
  | some row =>
    simp only [hc] at h
    obtain ⟨-, rfl⟩ := h
    have hrow := List.find?_some hc
    simp only [Bool.and_eq_true, decide_eq_true_eq] at hrow
    exact .inl ⟨rfl, row, mem_of_find?_eq_some hc, hrow⟩
  | none =>
    simp only [hc] at h
    split at h
    · cases h
    · rename_i hid
      obtain ⟨-, rfl⟩ := h
      refine .inr ⟨?_, hid⟩
      rw [Table.liveRows, filter_append]
      rfl

end Table

section Reading

variable {codecs : Codecs J} {blocks : List BlockMeta} {bytes : Bytes} {start : ℕ}

theorem Tiles.le {stop : ℕ} (h : Tiles start blocks stop) : start ≤ stop := by
  induction blocks generalizing start with
  | nil => exact Nat.le_of_eq h
  | cons m blocks ih => exact (Nat.le_add_right _ _).trans (ih h.2)

theorem readBlocks_eq (codecs : Codecs J) (key : Text) {off stop : ℕ}
    (h : Tiles start blocks stop) (hstop : stop ≤ off) (hoff : off ≤ bytes.length) :
    readBlocks codecs key (slice bytes 0 off) blocks = decodeBlocks codecs bytes blocks := by
  induction blocks generalizing start with
  | nil => rfl
  | cons m blocks ih =>
    have hend := Tiles.le h.2
    rw [← h.1] at hend
    have hlen : (slice bytes 0 off).length = off := by simp [slice, hoff]
    have hslice : slice (slice bytes 0 off) m.offset (m.offset + m.len) =
        slice bytes m.offset (m.offset + m.len) := by
      simp only [slice, drop_take, take_take]
      congr 1
      omega
    rw [readBlocks, if_neg (by omega), hslice, ih h.2, decodeBlocks]

/-- Where the footer of a chunk stands, and that nothing follows it. -/
structure FooterAt (codecs : Codecs J) (body : Bytes) (chunk : EncodedChunk) : Prop where
  offset : chunk.trailer.footerOffset = body.length + skippableHeaderLen
  len : chunk.trailer.footerLen = footerPayload codecs chunk.footer
  stop : chunk.trailer.footerOffset + chunk.trailer.footerLen = chunk.bytes.length

theorem footerAt_chunkOf (body : Bytes) {footer : ChunkFooter}
    (h : footerPayload codecs footer < 2 ^ 32) :
    FooterAt codecs body (chunkOf codecs body footer) := by
  have hlen : (chunkOf codecs body footer).trailer.footerLen = footerPayload codecs footer := by
    have hs : (codecs.labelsToVec footer.labels).length % 2 ^ 32 +
        (codecs.indexToVec footer.blocks).length % 2 ^ 32 + (bloomSection footer).length % 2 ^ 32 =
        (codecs.labelsToVec footer.labels).length + (codecs.indexToVec footer.blocks).length +
          (bloomSection footer).length := by
      rw [footerPayload] at h
      omega
    simp only [chunkOf, Trailer.footerLen, trailerOf, footerPayload]
    omega
  refine ⟨rfl, hlen, ?_⟩
  rw [hlen]
  simp only [chunkOf, Trailer.footerOffset, trailerOf, footerPayload, length_append,
    length_encodeTrailer, length_le, skippableHeaderLen]
  omega

theorem readChunkRange_eq (hobject : objects.lookup key = some bytes) (start stop : ℕ) :
    readChunkRange objects key start stop = .ok (slice bytes start stop) := by
  rw [readChunkRange]
  split
  · rename_i hle
    rw [slice, Nat.sub_eq_zero_of_le hle, take_zero]
  · rw [readChunk, hobject]
    rfl

theorem decodeTrailer_footer {body : Bytes} {chunk : EncodedChunk}
    (hrt : RoundTrip codecs identity lines chunk) (hat : FooterAt codecs body chunk) :
    decodeTrailer (slice chunk.bytes chunk.trailer.footerOffset
      (chunk.trailer.footerOffset + chunk.trailer.footerLen)) = .ok chunk.trailer := by
  obtain ⟨hoff, hlen, hstop⟩ := hat
  have hpos : trailerLen ≤ chunk.trailer.footerLen := by
    rw [hlen, footerPayload]
    omega
  have hsuffix : slice chunk.bytes chunk.trailer.footerOffset (chunk.trailer.footerOffset +
      chunk.trailer.footerLen) = chunk.bytes.drop chunk.trailer.footerOffset := by
    rw [slice, take_of_length_le]
    rw [length_drop]
    omega
  rw [hsuffix]
  apply hrt.trailer _ (drop_suffix _ _)
  rw [length_drop]
  omega

end Reading

/-- What the format and the columns of the manifest can hold. -/
@[mk_iff]
structure Mergeable (c : CompactorService J) (identity : ChunkIdentity)
    (lines : List (LogLine J)) : Prop where
  storable : Storable c.platform.codecs lines
  footer : footerPayload c.platform.codecs (footerOf c.platform.tables c.platform.xxh3
    c.platform.codecs identity lines true) < 2 ^ 31
  body : (bodyOf c.platform.codecs lines).length + skippableHeaderLen < 2 ^ 63

theorem readAllLines_encoded (h : Mergeable c identity lines) {encoded : EncodedChunk}
    (hencoded : ChunkEncoder.encodeLines c.platform.tables c.platform.xxh3 c.platform.codecs
      identity lines true = .ok encoded) (hobject : objects.lookup key = some encoded.bytes)
    (id seq : ℕ) :
    readAllLines c objects ((chunkMeta id key encoded).row seq) =
      .ok (lines.zipIdx.map lineAt) := by
  have hfooter := h.footer
  have hbody := h.body
  have hsmall : footerPayload c.platform.codecs (footerOf c.platform.tables c.platform.xxh3
      c.platform.codecs identity lines true) < 2 ^ 32 := by omega
  rw [encodeLines_eq h.storable hsmall] at hencoded
  have hrt := roundTrip_chunkOf h.storable hsmall
  have hat := footerAt_chunkOf (bodyOf c.platform.codecs lines) hsmall
  rw [Except.ok.inj hencoded] at hrt hat
  have hsame : encoded.footer = footerOf c.platform.tables c.platform.xxh3 c.platform.codecs
      identity lines true := by
    rw [← Except.ok.inj hencoded]
    rfl
  have hversion : encoded.trailer.version = formatVersion := by
    rw [← Except.ok.inj hencoded]
    rfl
  obtain ⟨hoff, hlen, hstop⟩ := hat
  have hpayload := hlen
  rw [hsame] at hpayload
  have hoff64 : throughI64 encoded.trailer.footerOffset = encoded.trailer.footerOffset := by
    rw [throughI64, Nat.mod_eq_of_lt (by omega), if_pos (by omega)]
  have hlen32 : throughI32 encoded.trailer.footerLen = encoded.trailer.footerLen := by
    rw [throughI32, Nat.mod_eq_of_lt (by omega), if_pos (by omega)]
  have htrailer := decodeTrailer_footer hrt ⟨hoff, hlen, hstop⟩
  have hrange := readChunkRange_eq hobject
  have hinside : encoded.trailer.footerOffset ≤ encoded.bytes.length := by omega
  have hblocks := readBlocks_eq c.platform.codecs key hrt.tiles (Nat.sub_le _ _) hinside
  have hnew : ¬ encoded.trailer.version < 2 := by
    rw [hversion]
    decide
  simp only [readAllLines, ChunkMeta.row, chunkMeta, if_neg hnew, hoff64, hlen32]
  rw [hrange, ok_bind, htrailer, ok_bind, hrt.footer, ok_bind, hrange, ok_bind, hblocks,
    hrt.decoded]

end Temps.LogAggregator.Services.Compactor
