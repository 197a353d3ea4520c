import Temps.LogAggregator.Chunk.Decoder

namespace Temps.LogAggregator.Chunk.BlockRoundTrip

open Lib Lib.Fallible Lib.Octets Lib.Utf8 LogAggregator.Types CurrentBlock List

variable {J : Type} {codecs : Codecs J}

def sums : ℕ → List ℕ → List ℕ
  | _, [] => []
  | total, n :: rest => (total + n) :: sums (total + n) rest

theorem sums_append (total : ℕ) (lens : List ℕ) (n : ℕ) :
    sums total (lens ++ [n]) = sums total lens ++ [total + lens.sum + n] := by
  induction lens generalizing total with
  | nil => simp [sums]
  | cons m lens ih => simp [sums, ih, Nat.add_assoc]

theorem getD_sums (total : ℕ) (front : List ℕ) (rest : List ℕ) :
    (total :: sums total (front ++ rest)).getD front.length 0 = total + front.sum := by
  induction front generalizing total with
  | nil => simp
  | cons n front ih =>
    have h := ih (total + n)
    simp only [cons_append, sums, length_cons, getD_cons_succ, sum_cons]
    omega

variable {rest buf body : Bytes} {lines front tail : List (LogLine J)} {cursor start total : ℕ}
  {line : LogLine J} {lens : List ℕ}

theorem le_of_mem_sums {s : ℕ} (h : s ∈ sums total lens) : s ≤ total + lens.sum := by
  induction lens generalizing total with
  | nil => cases h
  | cons n lens ih =>
    rw [sums, mem_cons] at h
    rw [sum_cons]
    rcases h with rfl | h
    · omega
    · have := ih h
      omega

theorem putLengths_sums (total : ℕ) (lens : List ℕ) (h : total + lens.sum < 2 ^ 32) :
    putLengths (total :: sums total lens) = lens.flatMap Varint.put := by
  induction lens generalizing total with
  | nil => rfl
  | cons n lens ih =>
    rw [sum_cons] at h
    have hn : (total + n + 2 ^ 32 - total) % 2 ^ 32 = n := by omega
    rw [sums, putLengths, ih _ (by omega), hn, flatMap_cons]

def msgOf (line : LogLine J) : Bytes := encode line.msg

def blockOf (codecs : Codecs J) (lines : List (LogLine J)) : CurrentBlock :=
  lines.foldl (CurrentBlock.push codecs) CurrentBlock.new

def statsOf (lines : List (LogLine J)) : Stats := lines.foldl Stats.push Stats.empty

def lengths (f : LogLine J → Bytes) (lines : List (LogLine J)) : List ℕ :=
  lines.map fun l ↦ (f l).length

theorem sum_lengths (f : LogLine J → Bytes) (lines : List (LogLine J)) :
    (lengths f lines).sum = (lines.flatMap f).length := by
  rw [lengths, length_flatMap]

structure Filled (codecs : Codecs J) (lines : List (LogLine J)) (b : CurrentBlock) : Prop where
  ts : b.ts = lines.map fun l ↦ tsNanos l.ts
  level : b.level = lines.map fun l ↦ levelToU8 l.level
  stream : b.stream = lines.map fun l ↦ streamToU8 l.stream
  msgOffsets : b.msgOffsets = (0 :: sums 0 (lengths msgOf lines)).map (· % 2 ^ 32)
  msgBytes : b.msgBytes = lines.flatMap msgOf
  fieldsOffsets : b.fieldsOffsets =
    (0 :: sums 0 (lengths (fieldsOf codecs) lines)).map (· % 2 ^ 32)
  fieldsBytes : b.fieldsBytes = lines.flatMap (fieldsOf codecs)
  stats : b.stats = statsOf lines

theorem Filled.push {b : CurrentBlock} (h : Filled codecs lines b) (line : LogLine J) :
    Filled codecs (lines ++ [line]) (b.push codecs line) := by
  have hoff : ∀ (f : LogLine J → Bytes) (offsets : List ℕ),
      offsets = (0 :: sums 0 (lengths f lines)).map (· % 2 ^ 32) →
      offsets ++ [(lines.flatMap f ++ f line).length % 2 ^ 32] =
        (0 :: sums 0 (lengths f (lines ++ [line]))).map (· % 2 ^ 32) := by
    intro f offsets hoffsets
    have hlen : lengths f (lines ++ [line]) = lengths f lines ++ [(f line).length] := by
      simp [lengths]
    rw [hoffsets, hlen, sums_append, sum_lengths]
    simp
  refine ⟨?_, ?_, ?_, ?_, ?_, ?_, ?_, ?_⟩
  · simp [CurrentBlock.push, h.ts]
  · simp [CurrentBlock.push, h.level]
  · simp [CurrentBlock.push, h.stream]
  · simp only [CurrentBlock.push, h.msgBytes]
    exact hoff msgOf _ h.msgOffsets
  · simp [CurrentBlock.push, h.msgBytes, msgOf]
  · simp only [CurrentBlock.push, h.fieldsBytes]
    exact hoff (fieldsOf codecs) _ h.fieldsOffsets
  · simp [CurrentBlock.push, h.fieldsBytes]
  · simp [CurrentBlock.push, h.stats, statsOf]

theorem filled_blockOf (codecs : Codecs J) (lines : List (LogLine J)) :
    Filled codecs lines (blockOf codecs lines) := by
  induction lines using List.reverseRecOn with
  | nil => exact ⟨rfl, rfl, rfl, rfl, rfl, rfl, rfl, rfl⟩
  | append_singleton lines line ih =>
    rw [blockOf, foldl_append]
    exact ih.push line

theorem map_mod_sums (h : total + lens.sum < 2 ^ 32) :
    (total :: sums total lens).map (· % 2 ^ 32) = total :: sums total lens := by
  have hid : ∀ s ∈ total :: sums total lens, s % 2 ^ 32 = s := by
    intro s hs
    rcases mem_cons.mp hs with rfl | hs
    · omega
    · have := le_of_mem_sums hs
      omega
  rw [map_congr_left hid, map_id']

def timestamps (lines : List (LogLine J)) : List (BitVec 64) := lines.map fun l ↦ tsNanos l.ts

/-- The byte columns of a block stay below the 32 bit offsets. -/
def Narrow (codecs : Codecs J) (lines : List (LogLine J)) : Prop :=
  (lines.flatMap msgOf).length < 2 ^ 32 ∧ (lines.flatMap (fieldsOf codecs)).length < 2 ^ 32

theorem serialize_blockOf (h : Narrow codecs lines) :
    (blockOf codecs lines).serialize = le 4 lines.length ++ (putDeltas 0 (timestamps lines) ++
        (lines.map (fun l ↦ levelToU8 l.level) ++ (lines.map (fun l ↦ streamToU8 l.stream) ++
          ((lengths msgOf lines).flatMap Varint.put ++ (lines.flatMap msgOf ++
            ((lengths (fieldsOf codecs) lines).flatMap Varint.put ++
              lines.flatMap (fieldsOf codecs))))))) := by
  have hb := filled_blockOf codecs lines
  have hm : 0 + (lengths msgOf lines).sum < 2 ^ 32 := by
    rw [sum_lengths, Nat.zero_add]
    exact h.1
  have hf : 0 + (lengths (fieldsOf codecs) lines).sum < 2 ^ 32 := by
    rw [sum_lengths, Nat.zero_add]
    exact h.2
  have hcount : (blockOf codecs lines).lineCount = lines.length := by
    rw [lineCount, hb.ts, length_map]
  rw [serialize, hcount, hb.ts, hb.level, hb.stream, hb.msgOffsets, hb.msgBytes, hb.fieldsOffsets,
    hb.fieldsBytes, map_mod_sums hm, map_mod_sums hf, putLengths_sums 0 _ hm,
    putLengths_sums 0 _ hf]
  simp only [append_assoc, timestamps]

theorem drop_after {read : Bytes} (h : buf.drop cursor = read ++ rest) :
    buf.drop (cursor + read.length) = rest := by
  rw [← drop_drop, h, drop_left]

theorem getVarint_put {w : ℕ} (h : buf.drop cursor = Varint.put w ++ rest) (hw : w < 2 ^ 64) :
    getVarint buf cursor = .ok (w, cursor + (Varint.put w).length) := by
  rw [getVarint, (Varint.get_put h hw).1]

theorem decodeTimestamps_put (tss : List (BitVec 64)) {prev : BitVec 64}
    (h : body.drop cursor = putDeltas prev tss ++ rest) :
    decodeTimestamps body tss.length cursor prev =
      .ok (tss, cursor + (putDeltas prev tss).length) := by
  induction tss generalizing cursor prev with
  | nil => rfl
  | cons ts tss ih =>
    rw [putDeltas, append_assoc] at h
    have hget := getVarint_put h (Varint.zigzag (ts - prev)).isLt
    have hts : prev + Varint.unzigzag (BitVec.ofNat 64 (Varint.zigzag (ts - prev)).toNat) = ts := by
      rw [BitVec.ofNat_toNat, BitVec.setWidth_eq, Varint.unzigzag_zigzag, BitVec.add_comm,
        BitVec.sub_add_cancel]
    simp only [length_cons, decodeTimestamps, hget, ok_bind, hts, ih (drop_after h), putDeltas,
      length_append, Nat.add_assoc]
    rfl

theorem lengthPrefixSums_put (lens : List ℕ) (h : buf.drop cursor = lens.flatMap Varint.put ++ rest)
    (hfit : total + lens.sum ≤ buf.length) (hbuf : buf.length < 2 ^ 64) :
    lengthPrefixSums buf lens.length cursor total =
      .ok (sums total lens, cursor + (lens.flatMap Varint.put).length) := by
  induction lens generalizing cursor total with
  | nil => rfl
  | cons n lens ih =>
    rw [flatMap_cons, append_assoc] at h
    rw [sum_cons] at hfit
    have hget := getVarint_put h (by omega)
    have hok : ¬ (2 ^ 64 ≤ total + n ∨ buf.length < total + n) := by omega
    have hfit' : total + n + lens.sum ≤ buf.length := by omega
    simp only [length_cons, lengthPrefixSums, hget, ok_bind, if_neg hok,
      ih (drop_after h) hfit', flatMap_cons, length_append, Nat.add_assoc]
    rfl

theorem spanEnd_ok {len : ℕ} (h : start + len ≤ buf.length) (hbuf : buf.length < 2 ^ 64) :
    spanEnd buf start len = .ok (start + len) := by
  have h1 : ¬ 2 ^ 64 ≤ start + len := by omega
  have h2 : ¬ buf.length < start + len := by omega
  simp only [spanEnd, if_neg h1, requireLen, if_neg h2]
  rfl

structure ColumnsAt (codecs : Codecs J) (lines : List (LogLine J)) (body : Bytes) (c : Columns) :
    Prop where
  ts : c.ts = timestamps lines
  level : ∃ rest, body.drop c.levelStart = lines.map (fun l ↦ levelToU8 l.level) ++ rest
  stream : ∃ rest, body.drop c.streamStart = lines.map (fun l ↦ streamToU8 l.stream) ++ rest
  msgOffsets : c.msgOffsets = 0 :: sums 0 (lengths msgOf lines)
  msg : ∃ rest, body.drop c.msgStart = lines.flatMap msgOf ++ rest
  fieldsOffsets : c.fieldsOffsets = 0 :: sums 0 (lengths (fieldsOf codecs) lines)
  fields : ∃ rest, body.drop c.fieldsStart = lines.flatMap (fieldsOf codecs) ++ rest

theorem exists_next {part : Bytes} (h : buf.drop cursor = part ++ rest) (hc : cursor ≤ buf.length) :
    ∃ next, cursor + part.length = next ∧ next ≤ buf.length ∧ buf.drop next = rest := by
  have hlen := congrArg List.length h
  rw [length_drop, length_append] at hlen
  exact ⟨_, rfl, by omega, drop_after h⟩

theorem getD_lengths (f : LogLine J → Bytes) (front tail : List (LogLine J)) :
    (0 :: sums 0 (lengths f (front ++ tail))).getD front.length 0 = (front.flatMap f).length := by
  have h := getD_sums 0 (lengths f front) (lengths f tail)
  have hlen : (lengths f front).length = front.length := length_map _
  rw [hlen, sum_lengths, Nat.zero_add] at h
  rw [← h, lengths, lengths, lengths, map_append]

theorem total_sums (f : LogLine J → Bytes) (lines : List (LogLine J)) :
    (0 :: sums 0 (lengths f lines)).getD lines.length 0 = (lines.flatMap f).length := by
  have h := getD_lengths f lines []
  rwa [append_nil] at h

theorem decodeColumns_serialize (h : Narrow codecs lines)
    (hbody : (blockOf codecs lines).serialize.length < 2 ^ 64) :
    ∃ c, decodeColumns (blockOf codecs lines).serialize lines.length = .ok c ∧
      ColumnsAt codecs lines (blockOf codecs lines).serialize c := by
  have hlayout := serialize_blockOf h
  generalize (blockOf codecs lines).serialize = body at hlayout hbody
  have c0 : 4 ≤ body.length := by
    rw [hlayout, length_append, length_le]
    omega
  have h0 := congrArg (List.drop 4) hlayout
  rw [drop_left' (length_le 4 _)] at h0
  have hmlen : (lengths msgOf lines).length = lines.length := length_map _
  have hflen : (lengths (fieldsOf codecs) lines).length = lines.length := length_map _
  have htlen : (timestamps lines).length = lines.length := length_map _
  have hllen : (lines.map fun l ↦ levelToU8 l.level).length = lines.length := length_map _
  have hslen : (lines.map fun l ↦ streamToU8 l.stream).length = lines.length := length_map _
  obtain ⟨k1, e1, c1, h1⟩ := exists_next h0 c0
  obtain ⟨k2, e2, c2, h2⟩ := exists_next h1 c1
  obtain ⟨k3, e3, c3, h3⟩ := exists_next h2 c2
  obtain ⟨k4, e4, c4, h4⟩ := exists_next h3 c3
  obtain ⟨k5, e5, c5, h5⟩ := exists_next h4 c4
  obtain ⟨k6, e6, c6, h6⟩ := exists_next h5 c5
  rw [← append_nil (lines.flatMap (fieldsOf codecs))] at h6
  obtain ⟨k7, e7, c7, -⟩ := exists_next h6 c6
  have hmfit : 0 + (lengths msgOf lines).sum ≤ body.length := by
    rw [sum_lengths]
    omega
  have hffit : 0 + (lengths (fieldsOf codecs) lines).sum ≤ body.length := by
    rw [sum_lengths]
    omega
  have hts := decodeTimestamps_put _ h0
  have hmsg := lengthPrefixSums_put _ h3 hmfit hbody
  have hfields := lengthPrefixSums_put _ h5 hffit hbody
  rw [htlen, e1] at hts
  rw [hmlen, e4] at hmsg
  rw [hflen, e6] at hfields
  rw [hllen] at e2
  rw [hslen] at e3
  have hk2 := spanEnd_ok (e2.trans_le c2) hbody
  have hk3 := spanEnd_ok (e3.trans_le c3) hbody
  have hk5 := spanEnd_ok (e5.trans_le c5) hbody
  have hk7 := spanEnd_ok (e7.trans_le c7) hbody
  rw [e2] at hk2
  rw [e3] at hk3
  rw [e5] at hk5
  refine ⟨⟨timestamps lines, k1, k2, 0 :: sums 0 (lengths msgOf lines), k4,
    0 :: sums 0 (lengths (fieldsOf codecs) lines), k6⟩, ?_,
    ⟨rfl, ⟨_, h1⟩, ⟨_, h2⟩, rfl, ⟨_, h4⟩, rfl, ⟨_, h6⟩⟩⟩
  simp only [decodeColumns, hts, ok_bind, hk2, hk3, hmsg, total_sums, hk5, hfields, hk7]
  rfl

theorem getD_of_drop (f : LogLine J → UInt8)
    (h : body.drop start = (front ++ line :: tail).map f ++ rest) :
    body.getD (start + front.length) 0 = f line := by
  have hget : (body.drop start).getD front.length 0 = f line := by
    rw [h]
    simp
  rwa [getD_eq_getElem?_getD, List.getElem?_drop] at hget

theorem slice_of_drop (f : LogLine J → Bytes)
    (h : body.drop start = (front ++ line :: tail).flatMap f ++ rest) :
    slice body (start + (front.flatMap f).length)
      (start + ((front ++ [line]).flatMap f).length) = f line := by
  have hlen : start + ((front ++ [line]).flatMap f).length -
      (start + (front.flatMap f).length) = (f line).length := by
    simp only [flatMap_append, flatMap_cons, flatMap_nil, append_nil, length_append]
    omega
  rw [slice, hlen, ← drop_drop, h, flatMap_append, append_assoc, drop_left,
    flatMap_cons, append_assoc, take_left]

def decoded (first : ℕ) (line : LogLine J) (i : ℕ) : DecodedLine J where
  ts := tsFromNanos (tsNanos line.ts)
  level := line.level
  stream := line.stream
  message := line.msg
  fields := line.fields
  lineIndex := (first + i) % 2 ^ 32

def keeps (filter : BlockFilter) (line : LogLine J) : Bool :=
  filter.matchesLine (tsFromNanos (tsNanos line.ts)) line.level

theorem decodeFields_fieldsOf {stop : ℕ} (h : slice body start stop = fieldsOf codecs line)
    (hlen : stop = start + (fieldsOf codecs line).length) :
    decodeFields codecs body start stop = .ok line.fields := by
  cases hfields : line.fields with
  | none =>
    have hstop : start = stop := by simp [hlen, fieldsOf, hfields]
    rw [decodeFields, if_pos hstop]
  | some json =>
    have hvec : fieldsOf codecs line = codecs.fieldsToVec json := by simp [fieldsOf, hfields]
    have hne : start ≠ stop := by
      have hpos := length_pos_iff.mpr (codecs.fields_ne_nil json)
      rw [hvec] at hlen
      omega
    rw [decodeFields, if_neg hne, h, hvec, codecs.fields_lossless]
    rfl

theorem decodeLines_columns {columns : Columns} (blockMeta : BlockMeta) (filter : BlockFilter)
    (front tail : List (LogLine J)) (h : ColumnsAt codecs (front ++ tail) body columns) :
    decodeLines codecs body blockMeta filter columns (List.range' front.length tail.length) =
      .ok (((tail.zipIdx front.length).filter fun p ↦ keeps filter p.1).map fun p ↦
        decoded blockMeta.firstLineIndex p.1 p.2) := by
  induction tail generalizing front with
  | nil => rfl
  | cons line tail ih =>
    have hrest := ih (front ++ [line]) (by rwa [append_assoc])
    rw [length_append, length_singleton] at hrest
    obtain ⟨_, hlevel⟩ := h.level
    obtain ⟨_, hstream⟩ := h.stream
    obtain ⟨_, hmsg⟩ := h.msg
    obtain ⟨_, hfields⟩ := h.fields
    have hts : columns.ts.getD front.length 0 = tsNanos line.ts := by
      rw [h.ts, timestamps]
      simp
    have hoff : ∀ f : LogLine J → Bytes,
        (0 :: sums 0 (lengths f (front ++ line :: tail))).getD (front.length + 1) 0 =
          ((front ++ [line]).flatMap f).length := by
      intro f
      have hnext := getD_lengths f (front ++ [line]) tail
      rwa [append_assoc, length_append] at hnext
    rw [length_cons, List.range'_succ, decodeLines, hts, getD_of_drop _ hlevel,
      levelFromU8_levelToU8, zipIdx_cons]
    cases hkeep : filter.matchesLine (tsFromNanos (tsNanos line.ts)) line.level with
    | false =>
      have hdrop : keeps filter line = false := hkeep
      simp only [Bool.not_false, if_true, hrest, filter_cons, hdrop, Bool.false_eq_true, if_false]
    | true =>
      have htake : keeps filter line := hkeep
      have hfield := decodeFields_fieldsOf (slice_of_drop _ hfields)
        (by simp only [flatMap_append, flatMap_cons, flatMap_nil, append_nil, length_append]; omega)
      simp only [getD_of_drop _ hstream,
        streamFromU8_streamToU8, h.msgOffsets, h.fieldsOffsets, getD_lengths, hoff,
        slice_of_drop _ hmsg, hfield, hrest, filter_cons, htake, msgOf, decodeLossy_encode]
      rfl

theorem length_putDeltas (prev : BitVec 64) (tss : List (BitVec 64)) :
    tss.length ≤ (putDeltas prev tss).length ∧ (putDeltas prev tss).length ≤ 10 * tss.length := by
  induction tss generalizing prev with
  | nil => exact ⟨le_rfl, le_rfl⟩
  | cons ts tss ih =>
    have hput := Varint.length_put (Varint.zigzag (ts - prev)).toNat
    have hrest := ih ts
    simp only [putDeltas, length_append, length_cons]
    omega

theorem length_putAll (lens : List ℕ) : (lens.flatMap Varint.put).length ≤ 10 * lens.length := by
  induction lens with
  | nil => exact le_rfl
  | cons n lens ih =>
    have hput := Varint.length_put n
    simp only [flatMap_cons, length_append, length_cons]
    omega

theorem length_serialize (h : Narrow codecs lines) (hn : lines.length < 2 ^ 32) :
    4 + lines.length ≤ (blockOf codecs lines).serialize.length ∧
      (blockOf codecs lines).serialize.length < 2 ^ 40 := by
  have hdeltas := length_putDeltas 0 (timestamps lines)
  have hmsg := length_putAll (lengths msgOf lines)
  have hfields := length_putAll (lengths (fieldsOf codecs) lines)
  obtain ⟨hm, hf⟩ := h
  rw [serialize_blockOf ⟨hm, hf⟩]
  simp only [timestamps, lengths, length_append, length_le, length_map] at *
  omega

theorem decodeBlock_serialize (h : Narrow codecs lines) (hn : lines.length < 2 ^ 32)
    (blockMeta : BlockMeta) (filter : BlockFilter) :
    decodeBlock codecs (codecs.zstdEncode (blockOf codecs lines).serialize) blockMeta filter =
      .ok (((lines.zipIdx).filter fun p ↦ keeps filter p.1).map fun p ↦
        decoded blockMeta.firstLineIndex p.1 p.2) := by
  have hlen := length_serialize h hn
  have hcount : ofLe (slice (blockOf codecs lines).serialize 0 4) = lines.length := by
    rw [slice, serialize_blockOf h, drop_zero, take_left' (length_le 4 _), ofLe_le]
    exact hn
  obtain ⟨columns, hcolumns, hat⟩ := decodeColumns_serialize h (by omega)
  have hlines := decodeLines_columns blockMeta filter [] lines hat
  have h4 : ¬ (blockOf codecs lines).serialize.length < 4 := by omega
  have hfit : ¬ (blockOf codecs lines).serialize.length < lines.length := by omega
  rw [length_nil, ← range_eq_range'] at hlines
  simp only [decodeBlock, codecs.zstd_lossless, if_neg h4, hcount, if_neg hfit, hcolumns, ok_bind,
    hlines]

end Temps.LogAggregator.Chunk.BlockRoundTrip
