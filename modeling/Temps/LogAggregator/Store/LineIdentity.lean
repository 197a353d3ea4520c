import Temps.Lib.Base64
import Temps.Lib.TextCode
import Temps.LogAggregator.Store.LogQuery

namespace Temps.LogAggregator.Store

open Lib Lib.Octets Lib.Unicode Lib.Utf8 Lib.Wire Lib.TextCode LogAggregator.Types

variable {timestamp : ℤ} {containerId scopeHash : String} {seq index heads : ℕ} {key : LogLineKey}

namespace LogLineKey

def chunkPosition (key : LogLineKey) : Option (ℤ × ℕ) :=
  if headLineIdBase.toInt ≤ key.lineId ∨ key.lineId < 0 then none
  else some (key.lineId >>> lineIndexBits,
    (BitVec.ofInt 64 key.lineId &&& BitVec.ofNat 64 (2 ^ lineIndexBits - 1)).toNat)

theorem headLineIdBase_eq : headLineIdBase.toInt = 2 ^ 62 - 1 := by decide

theorem chunkPosition_natCast {n : ℕ} (h : n < 2 ^ 62 - 1) :
    chunkPosition ⟨timestamp, containerId, n⟩ = some (((n / 2 ^ 20 : ℕ) : ℤ), n % 2 ^ 20) := by
  have hbase := headLineIdBase_eq
  have hn : (BitVec.ofInt 64 (n : ℤ)).toNat = n := by
    rw [BitVec.toNat_ofInt]
    omega
  have hmask : (BitVec.ofNat 64 (2 ^ lineIndexBits - 1)).toNat = 2 ^ 20 - 1 := rfl
  rw [chunkPosition, if_neg (by dsimp only; omega), BitVec.toNat_and, hn, hmask,
    Nat.and_two_pow_sub_one_eq_mod, Int.shiftRight_eq_div_pow]
  rfl

theorem sealedLineId_eq (hindex : index < 2 ^ 20) (h : seq * 2 ^ 20 + index < 2 ^ 62 - 1) :
    sealedLineId seq index = (seq * 2 ^ 20 + index : ℕ) := by
  have hshift : (BitVec.ofNat 64 seq <<< lineIndexBits).toNat = seq <<< 20 := by
    rw [BitVec.toNat_shiftLeft, BitVec.toNat_ofNat,
      lineIndexBits]
    omega
  have hlow : (BitVec.ofNat 64 index).toNat = index := by
    rw [BitVec.toNat_ofNat]
    omega
  have hpacked : (BitVec.ofNat 64 seq <<< lineIndexBits ||| BitVec.ofNat 64 index).toNat =
      seq * 2 ^ 20 + index := by
    rw [BitVec.toNat_or, hshift, hlow, ← Nat.shiftLeft_add_eq_or_of_lt hindex, Nat.shiftLeft_eq]
  rw [sealedLineId, BitVec.toInt_eq_toNat_of_lt (by omega), hpacked]

theorem chunkPosition_sealed_iff :
    chunkPosition ⟨timestamp, containerId, sealedLineId seq index⟩ = some ((seq : ℤ), index) ↔
      index < 2 ^ 20 ∧ seq * 2 ^ 20 + index < 2 ^ 62 - 1 := by
  have hbase := headLineIdBase_eq
  constructor
  · intro h
    have hrange : ¬ (headLineIdBase.toInt ≤ sealedLineId seq index ∨ sealedLineId seq index < 0) := by
      intro hout
      rw [chunkPosition, if_pos hout] at h
      cases h
    obtain ⟨n, hn⟩ := Int.eq_ofNat_of_zero_le (a := sealedLineId seq index) (by omega)
    rw [hn] at h
    rw [chunkPosition_natCast (by omega)] at h
    obtain ⟨hseq, hindex⟩ := Prod.mk.inj (Option.some.inj h)
    omega
  · intro ⟨hindex, h⟩
    rw [sealedLineId_eq hindex h, chunkPosition_natCast h]
    simp only [Option.some.injEq, Prod.mk.injEq]
    omega

/-- The base has every bit that an index can set, so all head lines have one id. -/
theorem headLineId_eq {i : ℕ} (h : i < 2 ^ 62) : headLineId i = 2 ^ 62 - 1 := by
  have hbase : headLineIdBase.toNat = 2 ^ 62 - 1 := rfl
  have hor : (headLineIdBase ||| BitVec.ofNat 64 i).toNat = 2 ^ 62 - 1 := by
    rw [BitVec.toNat_or, BitVec.toNat_ofNat, Nat.mod_eq_of_lt (by omega), hbase]
    refine Nat.eq_of_testBit_eq fun k ↦ ?_
    rw [Nat.testBit_or, Nat.testBit_two_pow_sub_one]
    by_cases hk : k < 62
    · simp [hk]
    · have hpow : 2 ^ 62 ≤ 2 ^ k := Nat.pow_le_pow_right (by decide) (by omega)
      rw [Nat.testBit_lt_two_pow (h.trans_le hpow), Bool.or_false]
  rw [headLineId, BitVec.toInt_eq_toNat_of_lt (by omega), hor]
  rfl

end LogLineKey

open LogLineKey

def cursorVersion : ℕ := 3

structure CursorPayload where
  v : ℕ
  s : String
  k : LogLineKey

section

variable (time : Code ℤ Char)

/-- `CursorPayload` in the JSON of `serde_json`; `time` is the text that `chrono` gives a time. -/
def payloadCode : Code CursorPayload Char :=
  (((decimal ',' rfl).framed "\x7b\"v\":".toList []).pair
    ((quoted.framed "\"s\":".toList []).pair
    ((time.framed ",\"k\":\x7b\"timestamp\":\"".toList "\"".toList).pair
    ((quoted.framed ",\"container_id\":".toList []).pair
    ((signed '\x7d' rfl).framed ",\"line_id\":".toList "\x7d".toList))))).map
    (fun p ↦ (p.v, p.s.toList, p.k.timestamp, p.k.containerId.toList, p.k.lineId))
    (fun (v, s, timestamp, containerId, lineId) ↦
      ⟨v, String.ofList s, timestamp, String.ofList containerId, lineId⟩)
    fun p ↦ by simp only [String.ofList_toList]

def toVec (payload : CursorPayload) : Bytes := encode ((payloadCode time).put payload)

/-- What `serde_json::from_slice` makes of any bytes; it reads what `to_vec` has written. -/
structure PayloadReader where
  fromSlice : Bytes → Option CursorPayload
  fromSlice_toVec : ∀ payload, fromSlice (toVec time payload) = some payload

/-- The reader that takes nothing else. -/
def strictReader : PayloadReader time where
  fromSlice bytes := do
    let (payload, rest) ← (payloadCode time).get (decodeLossy bytes)
    guard (rest = [])
    return payload
  fromSlice_toVec payload := by
    have hread := (payloadCode time).get_put payload []
    rw [List.append_nil] at hread
    simp [toVec, decodeLossy_encode, hread]

def encodeCursor (key : LogLineKey) (scopeHash : String) : Text :=
  Base64.encode (toVec time ⟨cursorVersion, scopeHash, key⟩)

variable {time} in
def decodeCursor (reader : PayloadReader time) (raw : Text) (scopeHash : String) :
    Except LogAggregatorError LogLineKey :=
  let reject := LogAggregatorError.invalidCursor (raw.take 16 ++ ['…'])
  if 2048 < (encode raw).length then .error reject
  else
    match Base64.decode raw with
    | none => .error reject
    | some bytes =>
      match reader.fromSlice bytes with
      | none => .error reject
      | some payload =>
        if payload.v ≠ cursorVersion ∨ payload.s ≠ scopeHash then
          .error (.validation "This cursor belongs to a different log search. Re-run the search.")
        else .ok payload.k

/-- The bytes of the JSON texts of the inputs (the last with the brace behind it), and what stands
around them. -/
def payloadSize (key : LogLineKey) (scopeHash : String) : ℕ :=
  59 + (encode (quoted.put scopeHash.toList)).length +
    (encode (time.put key.timestamp)).length +
    (encode (quoted.put key.containerId.toList)).length +
    (encode ((signed '\x7d' rfl).put key.lineId)).length

theorem length_toVec (key : LogLineKey) (scopeHash : String) :
    (toVec time ⟨cursorVersion, scopeHash, key⟩).length = payloadSize time key scopeHash := by
  have happend (s t : Text) : (encode (s ++ t)).length = (encode s).length + (encode t).length := by
    rw [encode, List.flatMap_append, List.length_append, encode, encode]
  have hversion : (encode ((decimal ',' rfl).put cursorVersion)).length = 2 := by decide +kernel
  simp only [toVec, payloadCode, Code.map, Code.pair, Code.framed, happend, hversion, payloadSize]
  change 5 + 2 + 0 + (4 + _ + 0 + (19 + _ + 1 + (16 + _ + 0 + (11 + _ + 1)))) = _
  omega

theorem length_encodeCursor (key : LogLineKey) (scopeHash : String) :
    (encode (encodeCursor time key scopeHash)).length =
      (4 * payloadSize time key scopeHash + 2) / 3 := by
  rw [encodeCursor, length_encode_ascii (Base64.ascii_encode _), Base64.length_encode, length_toVec]

end

variable {time : Code ℤ Char} {reader : PayloadReader time}

theorem decodeCursor_encodeCursor_iff :
    decodeCursor reader (encodeCursor time key scopeHash) scopeHash = .ok key ↔
      payloadSize time key scopeHash ≤ 1536 := by
  have hlength := length_encodeCursor time key scopeHash
  by_cases hlong : 2048 < (encode (encodeCursor time key scopeHash)).length
  · rw [decodeCursor, if_pos hlong]
    exact ⟨nofun, fun h ↦ by omega⟩
  · rw [decodeCursor, if_neg hlong, encodeCursor, Base64.decode_encode]
    simp only [reader.fromSlice_toVec, ne_eq, not_true_eq_false, or_self, if_false, true_iff]
    omega

def lineIds (seq index heads : ℕ) : List ℤ :=
  sealedLineId seq index :: (List.range heads).map headLineId

/-- What the ids of one container tell: the place of the sealed line, one head line from another,
head lines from sealed ones, and where a page ended. -/
structure Identifies (reader : PayloadReader time) (scopeHash : String) (timestamp : ℤ)
    (containerId : String) (seq index heads : ℕ) : Prop where
  position : chunkPosition ⟨timestamp, containerId, sealedLineId seq index⟩ = some ((seq : ℤ), index)
  distinct : ∀ i < heads, ∀ j < heads, headLineId i = headLineId j → i = j
  newer : ∀ i < heads, sealedLineId seq index < headLineId i
  cursors : ∀ id ∈ lineIds seq index heads,
    decodeCursor reader (encodeCursor time ⟨timestamp, containerId, id⟩ scopeHash) scopeHash =
      .ok ⟨timestamp, containerId, id⟩

theorem identifies_iff :
    Identifies reader scopeHash timestamp containerId seq index heads ↔
      index < 2 ^ 20 ∧ seq * 2 ^ 20 + index < 2 ^ 62 - 1 ∧ heads ≤ 1 ∧
        ∀ id ∈ lineIds seq index heads,
          payloadSize time ⟨timestamp, containerId, id⟩ scopeHash ≤ 1536 := by
  have hfirst : headLineId 0 = 2 ^ 62 - 1 := headLineId_eq (by decide)
  constructor
  · intro h
    obtain ⟨hindex, hseq⟩ := chunkPosition_sealed_iff.mp h.position
    refine ⟨hindex, hseq, ?_, fun id hid ↦ decodeCursor_encodeCursor_iff.mp (h.cursors id hid)⟩
    by_contra hmany
    have hsecond : headLineId 1 = 2 ^ 62 - 1 := headLineId_eq (by decide)
    have hsame := h.distinct 0 (by omega) 1 (by omega) (hfirst.trans hsecond.symm)
    cases hsame
  · intro ⟨hindex, hseq, hone, hshort⟩
    refine ⟨chunkPosition_sealed_iff.mpr ⟨hindex, hseq⟩, fun i hi j hj _ ↦ ?_,
      fun i hi ↦ ?_, fun id hid ↦ decodeCursor_encodeCursor_iff.mpr (hshort id hid)⟩
    · omega
    · obtain rfl : i = 0 := by omega
      rw [sealedLineId_eq hindex hseq]
      omega

theorem identifies_first_line :
    Identifies (strictReader (signed 'Z' rfl)) "all" 1700000000123456789 "web-1" 1 0 1 :=
  identifies_iff.mpr (by decide +kernel)

/-- Two head lines of one timestamp have one key, and the line after the first `2 ^ 20` of a chunk
has the id of its first. -/
theorem shared_line_ids :
    headLineId 0 = headLineId 1 ∧ sealedLineId 1 (2 ^ 20) = sealedLineId 1 0 := by
  decide

end Temps.LogAggregator.Store
