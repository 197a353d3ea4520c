import Temps.LogAggregator.Chunk.Decoder

namespace Temps.LogAggregator.Chunk.FooterRoundTrip

open Lib.Fallible Lib.Octets LogAggregator.Types List

variable {J : Type} {t : Trailer} {start : ℕ}

/-- The fields of a trailer stay within the widths they are written with. -/
structure Fits (t : Trailer) : Prop where
  labelsOff : t.labelsOff < 2 ^ 64
  labelsLen : t.labelsLen < 2 ^ 32
  indexOff : t.indexOff < 2 ^ 64
  indexLen : t.indexLen < 2 ^ 32
  bloomOff : t.bloomOff < 2 ^ 64
  bloomLen : t.bloomLen < 2 ^ 32
  crc32 : t.crc32 < 2 ^ 32
  version : t.version = formatVersion

theorem read_le {buf rest : Bytes} {stop w n : ℕ} (hstop : start + w = stop)
    (h : buf.drop start = le w n ++ rest) (hn : n < 256 ^ w) :
    ofLe (slice buf start stop) = n ∧ buf.drop stop = rest := by
  have hw : stop - start = w := by omega
  rw [slice, hw, h, take_left' (length_le w n), ofLe_le hn, ← hstop, ← drop_drop, h,
    drop_left' (length_le w n)]
  exact ⟨rfl, rfl⟩

theorem length_encodeTrailer (t : Trailer) : (encodeTrailer t).length = trailerLen := by
  simp [encodeTrailer, trailerLen]

theorem decodeTrailer_encodeTrailer (h : Fits t) (front : Bytes) :
    decodeTrailer (front ++ encodeTrailer t) = .ok t := by
  have hlen : ¬ (front ++ encodeTrailer t).length < trailerLen := by
    rw [length_append, length_encodeTrailer]
    omega
  have hdrop : (front ++ encodeTrailer t).drop
      ((front ++ encodeTrailer t).length - trailerLen) = encodeTrailer t := by
    apply drop_left'
    rw [length_append, length_encodeTrailer]
    omega
  have h0 : (encodeTrailer t).drop 0 = le 8 t.labelsOff ++ (le 4 t.labelsLen ++
      (le 8 t.indexOff ++ (le 4 t.indexLen ++ (le 8 t.bloomOff ++ (le 4 t.bloomLen ++
        (le 4 t.crc32 ++ (le 2 t.version ++ (le 2 0 ++ (le 4 chunkMagic ++ []))))))))) := by
    simp [encodeTrailer]
  obtain ⟨r0, h1⟩ := read_le (rfl : 0 + 8 = 8) h0 h.labelsOff
  obtain ⟨r1, h2⟩ := read_le (rfl : 8 + 4 = 12) h1 h.labelsLen
  obtain ⟨r2, h3⟩ := read_le (rfl : 12 + 8 = 20) h2 h.indexOff
  obtain ⟨r3, h4⟩ := read_le (rfl : 20 + 4 = 24) h3 h.indexLen
  obtain ⟨r4, h5⟩ := read_le (rfl : 24 + 8 = 32) h4 h.bloomOff
  obtain ⟨r5, h6⟩ := read_le (rfl : 32 + 4 = 36) h5 h.bloomLen
  obtain ⟨r6, h7⟩ := read_le (rfl : 36 + 4 = 40) h6 h.crc32
  obtain ⟨r7, h8⟩ := read_le (rfl : 40 + 2 = 42) h7 (by rw [h.version]; decide)
  obtain ⟨_, h9⟩ := read_le (rfl : 42 + 2 = 44) h8 (by decide)
  obtain ⟨r9, _⟩ := read_le (rfl : 44 + 4 = 48) h9 (by decide)
  simp only [decodeTrailer, if_neg hlen, hdrop, r0, r1, r2, r3, r4, r5, r6, r7, r9, h.version,
    ne_eq, not_true_eq_false, if_false]
  rw [← h.version]

theorem slice_append {front part : Bytes} (back : Bytes) {stop : ℕ} (hstart : front.length = start)
    (hstop : start + part.length = stop) : slice (front ++ (part ++ back)) start stop = part := by
  rw [slice, drop_left' hstart]
  exact take_left' (by omega)

/-- The sections of a footer, each of the length that the trailer says. -/
structure Sections (codecs : Codecs J) (footer : ChunkFooter) (bloomBytes : Bytes) (t : Trailer) :
    Prop where
  labelsLen : t.labelsLen = (codecs.labelsToVec footer.labels).length
  indexLen : t.indexLen = (codecs.indexToVec footer.blocks).length
  bloomLen : t.bloomLen = bloomBytes.length
  crc32 : t.crc32 = codecs.crc32
    (codecs.labelsToVec footer.labels ++ codecs.indexToVec footer.blocks ++ bloomBytes)
  bloom : bloomBytes = [] ∧ footer.bloom = none ∨
    bloomBytes ≠ [] ∧ ∃ bloom, Bloom.fromBytes bloomBytes = .ok bloom ∧ footer.bloom = some bloom

theorem decodeFooter_sections {codecs : Codecs J} {footer : ChunkFooter} {bloomBytes : Bytes}
    (h : Sections codecs footer bloomBytes t) :
    decodeFooter codecs (codecs.labelsToVec footer.labels ++ (codecs.indexToVec footer.blocks ++
      (bloomBytes ++ encodeTrailer t))) t = .ok footer := by
  have hcrc := h.crc32
  rw [decodeFooter, h.labelsLen, h.indexLen, h.bloomLen]
  generalize hl : codecs.labelsToVec footer.labels = labels at *
  generalize hi : codecs.indexToVec footer.blocks = index at *
  have hlen : (labels ++ (index ++ (bloomBytes ++ encodeTrailer t))).length =
      labels.length + index.length + bloomBytes.length + trailerLen := by
    simp only [length_append, length_encodeTrailer]
    omega
  have hshort : ¬ (labels ++ (index ++ (bloomBytes ++ encodeTrailer t))).length < trailerLen := by
    omega
  have hneeded : ¬ (labels ++ (index ++ (bloomBytes ++ encodeTrailer t))).length <
      labels.length + index.length + bloomBytes.length + trailerLen := by
    omega
  have s0 : slice (labels ++ (index ++ (bloomBytes ++ encodeTrailer t))) 0 labels.length =
      labels := by
    rw [← nil_append (labels ++ _)]
    exact slice_append _ rfl (by omega)
  have s1 : slice (labels ++ (index ++ (bloomBytes ++ encodeTrailer t))) labels.length
      (labels.length + index.length) = index := slice_append _ rfl rfl
  have s2 : slice (labels ++ (index ++ (bloomBytes ++ encodeTrailer t)))
      (labels.length + index.length) (labels.length + index.length + bloomBytes.length) =
      bloomBytes := by
    rw [← append_assoc]
    exact slice_append _ (length_append ..) rfl
  have hlabels : codecs.labelsFromSlice labels = .ok footer.labels := by
    rw [← hl, codecs.labels_lossless]
  have hindex : codecs.indexFromSlice index = .ok footer.blocks := by
    rw [← hi, codecs.index_lossless]
  simp only [if_neg hshort, if_neg hneeded, s0, s1, s2, ← hcrc, ne_eq,
    hlabels, hindex, liftJson, ok_bind]
  rcases h.bloom with ⟨hnil, hbloom⟩ | ⟨hne, bloom, hbytes, hbloom⟩
  · rw [hnil, ← hbloom]
    rfl
  · have hpos : ¬ bloomBytes.length = 0 := fun h0 ↦ hne (eq_nil_of_length_eq_zero h0)
    rw [if_neg hpos, hbytes, Except.map, ← hbloom]
    rfl

end Temps.LogAggregator.Chunk.FooterRoundTrip
