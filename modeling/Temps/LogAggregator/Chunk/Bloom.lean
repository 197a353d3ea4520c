import Mathlib.Data.Nat.Size
import Temps.Lib.Fallible
import Temps.Lib.Fields
import Temps.Lib.Unicode
import Temps.LogAggregator.Types

namespace Temps.LogAggregator.Chunk

open Lib.Fallible Lib.Octets Lib.Utf8 Lib.Unicode Lib.Fields LogAggregator.Types List

def bloomVersion : UInt8 := 1

def headerLen : ℕ := 12

def minBits : ℕ := 1024

def hashFunctions : UInt8 := 7

def tokenSeed : UInt64 := 0

def gramSeed : UInt64 := 1

/-- `xxh3_64_with_seed`, as some function of the bytes and the seed. -/
abbrev Xxh3 := Bytes → UInt64 → UInt64

structure Bloom where
  k : UInt8
  nBits : UInt64
  bits : Bytes
  deriving DecidableEq

def divCeil8 (n : ℕ) : ℕ := (n + 7) / 8

namespace Bloom

def new (nBits : UInt64) (k : UInt8) : Bloom :=
  ⟨k, nBits, List.replicate (divCeil8 nBits.toNat) 0⟩

def bitIndex (xxh3 : Xxh3) (bloom : Bloom) (entry : UInt64) (i : ℕ) : ℕ :=
  (xxh3 (le 8 entry.toNat) (UInt64.ofNat i)).toNat % bloom.nBits.toNat

def set (bloom : Bloom) (idx : ℕ) : Bloom :=
  { bloom with bits := bloom.bits.modify (idx / 8) (· ||| 1 <<< UInt8.ofNat (idx % 8)) }

/-- `none` where the index is out of bounds. -/
def isSet (bloom : Bloom) (idx : ℕ) : Option Bool :=
  bloom.bits[idx / 8]?.map fun byte ↦ byte >>> UInt8.ofNat (idx % 8) &&& 1 == 1

def insert (xxh3 : Xxh3) (bloom : Bloom) (entry : UInt64) : Bloom :=
  ((List.range bloom.k.toNat).map (bloom.bitIndex xxh3 entry)).foldl set bloom

/-- `none` where the remainder by `n_bits` or the access to the bits panics. -/
def contains (xxh3 : Xxh3) (bloom : Bloom) (entry : UInt64) : Option Bool :=
  (List.range bloom.k.toNat).allM fun i ↦
    if bloom.nBits = 0 then none else bloom.isSet (bloom.bitIndex xxh3 entry i)

def containsAll (xxh3 : Xxh3) (bloom : Bloom) (entries : List UInt64) : Option Bool :=
  entries.allM (bloom.contains xxh3)

def toBytes (bloom : Bloom) : Bytes :=
  bloomVersion :: bloom.k :: le 2 0 ++ le 8 bloom.nBits.toNat ++ bloom.bits

def fromBytes (bytes : Bytes) : Except LogAggregatorError Bloom :=
  if bytes.length < headerLen then
    .error (.chunkFormat ("bloom buffer too short: " ++ toString bytes.length ++
      " bytes, need at least " ++ toString headerLen))
  else
    let version := bytes.getD 0 0
    if version ≠ bloomVersion then
      .error (.chunkFormat ("unsupported bloom version " ++ toString version))
    else
      let nBits := ofLe ((bytes.take 12).drop 4)
      let expectedBitBytes := divCeil8 nBits
      let bits := bytes.drop headerLen
      if bits.length ≠ expectedBitBytes then
        .error (.chunkFormat ("bloom bit array length mismatch: got " ++ toString bits.length ++
          " bytes, expected " ++ toString expectedBitBytes ++ " for n_bits=" ++ toString nBits))
      else .ok ⟨bytes.getD 1 0, UInt64.ofNat nBits, bits⟩

end Bloom

def roundToDouble (m : ℕ) : ℕ :=
  let shift := m.size - 53
  let q := m >>> shift
  let r := m % 2 ^ shift
  let half := 2 ^ shift / 2
  let q' := if shift = 0 ∨ r < half ∨ (r = half ∧ q % 2 = 0) then q else q + 1
  q' <<< shift

/-- `(9.6 * n_entries as f64).ceil() as u64`: the double closest to 9.6 is `5404319552844595 /
2^49`. -/
def rawBits (nEntries : ℕ) : ℕ :=
  min ((roundToDouble (roundToDouble nEntries * 5404319552844595) + (2 ^ 49 - 1)) / 2 ^ 49)
    (2 ^ 64 - 1)

def sizeFor (nEntries : ℕ) : UInt64 :=
  UInt64.ofNat (max (divCeil8 (rawBits nEntries) * 8 % 2 ^ 64) minBits)

def hashToken (xxh3 : Xxh3) (token : Text) : UInt64 := xxh3 (encode token) tokenSeed

def hashGram (xxh3 : Xxh3) (gram : Text) : UInt64 := xxh3 (encode gram) gramSeed

def char3grams (token : Text) : List Text := windows3 token

def isDelimiter (u : Tables) (c : Char) : Bool := !u.isAlphanumeric c

def fields (u : Tables) (text : Text) : List Text :=
  (u.toLowercase text).splitOnP (isDelimiter u)

def tokenLength (token : Text) : Bool := 2 ≤ token.length && token.length ≤ 64

def tokens (u : Tables) (text : Text) : List Text := (fields u text).filter tokenLength

def insertEntry (entries : List UInt64) (entry : UInt64) : List UInt64 :=
  if entry ∈ entries then entries else entries ++ [entry]

def messageEntries (u : Tables) (xxh3 : Xxh3) (msg : Text) : List UInt64 :=
  (tokens u msg).flatMap fun token ↦ hashToken xxh3 token :: (char3grams token).map (hashGram xxh3)

def insertMessage (u : Tables) (xxh3 : Xxh3) (entries : List UInt64) (msg : Text) : List UInt64 :=
  (messageEntries u xxh3 msg).foldl insertEntry entries

def build (xxh3 : Xxh3) (entries : List UInt64) : Bloom :=
  entries.foldl (Bloom.insert xxh3) (Bloom.new (sizeFor entries.length) hashFunctions)

def buildMessages (u : Tables) (xxh3 : Xxh3) (msgs : List Text) : Bloom :=
  build xxh3 (msgs.foldl (insertMessage u xxh3) [])

def queryEntries (u : Tables) (xxh3 : Xxh3) (needle : Text) : List UInt64 :=
  let toks := tokens u needle
  let startsWithDelim := needle.head?.any (isDelimiter u)
  let endsWithDelim := needle.getLast?.any (isDelimiter u)
  toks.zipIdx.flatMap fun (token, idx) ↦
    let isFirst := idx == 0
    let isLast := idx == toks.length - 1
    let interior := (!isFirst || startsWithDelim) && (!isLast || endsWithDelim)
    (char3grams token).map (hashGram xxh3) ++ if interior then [hashToken xxh3 token] else []

theorem bit_shift (a : UInt8) {i : ℕ} (hi : i < 8) :
    (a >>> UInt8.ofNat i &&& 1 == 1) = a.toNat.testBit i := by
  have hk : (UInt8.ofNat i).toNat = i := toNat_ofNat_lt (by omega)
  rw [Bool.eq_iff_iff, beq_iff_eq, ← UInt8.toNat_inj, UInt8.toNat_and, UInt8.toNat_shiftRight, hk,
    Nat.mod_eq_of_lt hi]
  simp [Nat.testBit]

theorem bit_or (a : UInt8) {i j : ℕ} (hi : i < 8) (hj : j < 8) :
    (a ||| 1 <<< UInt8.ofNat j).toNat.testBit i = (a.toNat.testBit i || decide (i = j)) := by
  have hk : (UInt8.ofNat j).toNat = j := toNat_ofNat_lt (by omega)
  rw [UInt8.toNat_or, UInt8.toNat_shiftLeft, hk, Nat.mod_eq_of_lt hj, Nat.testBit_or]
  congr 1
  rw [Nat.testBit_mod_two_pow, show UInt8.toNat 1 = 1 from rfl, Nat.one_shiftLeft,
    Nat.testBit_two_pow, decide_eq_true hi, Bool.true_and, decide_eq_decide]
  exact eq_comm

namespace Bloom

variable {bloom : Bloom} {idx : ℕ}

theorem isSet_eq (h : idx / 8 < bloom.bits.length) :
    bloom.isSet idx = some ((bloom.bits[idx / 8]).toNat.testBit (idx % 8)) := by
  rw [isSet, List.getElem?_eq_getElem h, Option.map_some, bit_shift _ (Nat.mod_lt _ (by omega))]

@[simp] theorem set_length (bloom : Bloom) (j : ℕ) :
    (bloom.set j).bits.length = bloom.bits.length := length_modify _ _ _

theorem isSet_set (j : ℕ) (h : idx / 8 < bloom.bits.length) :
    (bloom.set j).isSet idx = (bloom.isSet idx).map (· || decide (idx = j)) := by
  have h' : idx / 8 < (bloom.set j).bits.length := by rwa [set_length]
  have hi := Nat.mod_lt idx (show 8 > 0 by omega)
  have hj := Nat.mod_lt j (show 8 > 0 by omega)
  rw [isSet_eq h', isSet_eq h]
  congr 1
  simp only [set, getElem_modify]
  by_cases hd : j / 8 = idx / 8
  · rw [if_pos hd, bit_or _ hi hj]
    congr 1
    rw [decide_eq_decide]
    omega
  · rw [if_neg hd, decide_eq_false (by rintro rfl; exact hd rfl), Bool.or_false]

theorem foldl_set (idx : ℕ) (js : List ℕ) (bloom : Bloom) :
    (js.foldl set bloom).nBits = bloom.nBits ∧ (js.foldl set bloom).k = bloom.k ∧
      (js.foldl set bloom).bits.length = bloom.bits.length ∧
      (idx / 8 < bloom.bits.length →
        (js.foldl set bloom).isSet idx = (bloom.isSet idx).map (· || decide (idx ∈ js))) := by
  induction js generalizing bloom with
  | nil => simp
  | cons j js ih =>
    obtain ⟨hn, hk, hl, hs⟩ := ih (bloom.set j)
    rw [foldl_cons]
    refine ⟨hn, hk, by rw [hl, set_length], fun h ↦ ?_⟩
    rw [hs (by rwa [set_length]), isSet_set j h, Option.map_map]
    congr 1
    funext b
    simp [Bool.or_assoc]

variable {xxh3 : Xxh3} {entry : UInt64} {entries : List UInt64} {base : Bloom}

def Marked (xxh3 : Xxh3) (bloom : Bloom) (entries : List UInt64) (idx : ℕ) : Prop :=
  ∃ entry ∈ entries, ∃ i < bloom.k.toNat, bloom.bitIndex xxh3 entry i = idx

structure Holds (xxh3 : Xxh3) (base : Bloom) (entries : List UInt64) (bloom : Bloom) : Prop where
  nBits : bloom.nBits = base.nBits
  k : bloom.k = base.k
  length : bloom.bits.length = base.bits.length
  bits : ∀ idx, idx / 8 < base.bits.length →
    (bloom.isSet idx = some true ↔ base.isSet idx = some true ∨ Marked xxh3 base entries idx)

theorem holds_insert (h : Holds xxh3 base entries bloom)
    (entry : UInt64) : Holds xxh3 base (entries ++ [entry]) (bloom.insert xxh3 entry) := by
  have hidx : bloom.bitIndex xxh3 entry = base.bitIndex xxh3 entry := by
    funext i
    rw [bitIndex, bitIndex, h.nBits]
  have hfold := fun idx ↦ foldl_set idx
    ((List.range bloom.k.toNat).map (bloom.bitIndex xxh3 entry)) bloom
  refine ⟨(hfold 0).1.trans h.nBits, (hfold 0).2.1.trans h.k, (hfold 0).2.2.1.trans h.length,
    fun idx hi ↦ ?_⟩
  have hin : idx / 8 < bloom.bits.length := by rwa [h.length]
  rw [insert, (hfold idx).2.2.2 hin, isSet_eq hin, Option.map_some, Option.some_inj, Bool.or_eq_true,
    ← Option.some_inj, ← isSet_eq hin, h.bits idx hi, decide_eq_true_eq, or_assoc]
  simp only [Marked, mem_append, mem_singleton, mem_map, mem_range, hidx, h.k,
    or_and_right, exists_or, exists_eq_left]

theorem holds_foldl (rest : List UInt64) (h : Holds xxh3 base entries bloom) :
    Holds xxh3 base (entries ++ rest) (rest.foldl (insert xxh3) bloom) := by
  induction rest generalizing entries bloom with
  | nil => simpa using h
  | cons entry rest ih => simpa using ih (holds_insert h entry)

theorem new_isSet (nBits : UInt64) (k : UInt8) (idx : ℕ) : (new nBits k).isSet idx ≠ some true := by
  rw [isSet, new, List.getElem?_replicate]
  split <;> simp

end Bloom

theorem sizeFor_bounds (n : ℕ) : 1024 ≤ (sizeFor n).toNat := by
  have h : max (divCeil8 (rawBits n) * 8 % 2 ^ 64) minBits < 2 ^ 64 := by
    simp only [minBits]
    omega
  rw [sizeFor, UInt64.toNat_ofNat_of_lt' h]
  exact Nat.le_max_right _ _

variable {xxh3 : Xxh3} {entries : List UInt64} {entry : UInt64} {bloom : Bloom}

theorem build_holds (xxh3 : Xxh3) (entries : List UInt64) :
    Bloom.Holds xxh3 (Bloom.new (sizeFor entries.length) hashFunctions) entries
      (build xxh3 entries) := by
  have hstart : Bloom.Holds xxh3 (Bloom.new (sizeFor entries.length) hashFunctions) []
      (Bloom.new (sizeFor entries.length) hashFunctions) :=
    ⟨rfl, rfl, rfl, fun _ _ ↦ by simp [Bloom.Marked]⟩
  exact Bloom.holds_foldl entries hstart

theorem build_contains : (build xxh3 entries).contains xxh3 entry = some true ↔
    ∀ i < 7, Bloom.Marked xxh3 (Bloom.new (sizeFor entries.length) hashFunctions) entries
      ((Bloom.new (sizeFor entries.length) hashFunctions).bitIndex xxh3 entry i) := by
  have h := build_holds xxh3 entries
  have hsize := sizeFor_bounds entries.length
  have hn : (build xxh3 entries).nBits ≠ 0 := by
    rw [h.nBits]
    intro h0
    have : (sizeFor entries.length).toNat = 0 := congrArg UInt64.toNat h0
    omega
  rw [Bloom.contains, allM_eq_some_true, h.k]
  simp only [hn, if_false, mem_range]
  refine forall₂_congr fun i _ ↦ ?_
  have hidx : (build xxh3 entries).bitIndex xxh3 entry i =
      (Bloom.new (sizeFor entries.length) hashFunctions).bitIndex xxh3 entry i := by
    rw [Bloom.bitIndex, Bloom.bitIndex, h.nBits]
  have hlt : (Bloom.new (sizeFor entries.length) hashFunctions).bitIndex xxh3 entry i <
      (sizeFor entries.length).toNat := Nat.mod_lt _ (Nat.lt_of_lt_of_le (by decide) hsize)
  have hlen : (Bloom.new (sizeFor entries.length) hashFunctions).bits.length =
      ((sizeFor entries.length).toNat + 7) / 8 := length_replicate
  rw [hidx, h.bits _ (by omega)]
  simp [Bloom.new_isSet]

theorem fromBytes_toBytes (h : bloom.bits.length = divCeil8 bloom.nBits.toNat) :
    Bloom.fromBytes bloom.toBytes = .ok bloom := by
  have hn : ofLe (le 8 bloom.nBits.toNat) = bloom.nBits.toNat :=
    ofLe_le (by simpa using bloom.nBits.toNat_lt)
  have hbytes : bloom.toBytes = [bloomVersion, bloom.k, 0, 0] ++ le 8 bloom.nBits.toNat ++
      bloom.bits := rfl
  have hlen : bloom.toBytes.length = 12 + bloom.bits.length := by
    simp only [hbytes, length_append, length_cons, length_nil, length_le]
  have hdrop : bloom.toBytes.drop headerLen = bloom.bits := by
    exact drop_left' (by simp [headerLen])
  have htake : (bloom.toBytes.take 12).drop 4 = le 8 bloom.nBits.toNat := by
    rw [hbytes, take_left' (by simp)]
    exact drop_left' rfl
  rw [Bloom.fromBytes, if_neg (by simp only [headerLen]; omega), hdrop, htake, hn]
  simp [hbytes, h]

theorem build_bytes (xxh3 : Xxh3) (entries : List UInt64) :
    Bloom.fromBytes (build xxh3 entries).toBytes = .ok (build xxh3 entries) := by
  have h := build_holds xxh3 entries
  apply fromBytes_toBytes
  rw [h.length, h.nBits]
  exact length_replicate

structure Bloom.Answers (bloom : Bloom) : Prop where
  inside : ∀ xxh3 entry, ∀ i < bloom.k.toNat, bloom.bitIndex xxh3 entry i < bloom.nBits.toNat ∧
    bloom.bitIndex xxh3 entry i / 8 < bloom.bits.length
  contains : ∀ xxh3 entry, (bloom.contains xxh3 entry).isSome = true
  containsAll : ∀ xxh3 entries, (bloom.containsAll xxh3 entries).isSome = true

theorem Bloom.answers_iff (h : bloom.bits.length = divCeil8 bloom.nBits.toNat) :
    bloom.Answers ↔ bloom.k = 0 ∨ bloom.nBits ≠ 0 := by
  constructor
  · intro hall
    by_contra hnot
    obtain ⟨hk, hn⟩ := not_or.mp hnot
    have hk : 0 < bloom.k.toNat := Nat.pos_of_ne_zero fun h ↦ hk (UInt8.toNat_inj.mp h)
    have hlt := (hall.inside (fun _ _ ↦ 0) 0 0 hk).1
    rw [Classical.not_not.mp hn] at hlt
    cases hlt
  · intro hor
    have hpos : ∀ i < bloom.k.toNat, bloom.nBits ≠ 0 := by
      intro i hi hn
      rw [hor.resolve_right (fun h ↦ h hn)] at hi
      cases hi
    have hinside : ∀ xxh3 entry, ∀ i < bloom.k.toNat,
        bloom.bitIndex xxh3 entry i < bloom.nBits.toNat ∧
          bloom.bitIndex xxh3 entry i / 8 < bloom.bits.length := by
      intro xxh3 entry i hi
      have hn : 0 < bloom.nBits.toNat :=
        Nat.pos_of_ne_zero fun h ↦ hpos i hi (UInt64.toNat_inj.mp h)
      have hlt : bloom.bitIndex xxh3 entry i < bloom.nBits.toNat := Nat.mod_lt _ hn
      rw [h, divCeil8]
      omega
    have hcontains : ∀ xxh3 entry, (bloom.contains xxh3 entry).isSome := by
      intro xxh3 entry
      refine allM_isSome fun i hi ↦ ?_
      have hi := mem_range.mp hi
      rw [if_neg (hpos i hi), isSet_eq (hinside xxh3 entry i hi).2]
      rfl
    exact ⟨hinside, hcontains, fun xxh3 _ ↦ allM_isSome fun entry _ ↦ hcontains xxh3 entry⟩

theorem fromBytes_length {bytes : Bytes} (h : Bloom.fromBytes bytes = .ok bloom) :
    bloom.bits.length = divCeil8 bloom.nBits.toNat := by
  revert h
  fun_cases Bloom.fromBytes bytes
  case case4 hlong _ _ nBits _ bits hbits =>
    rintro ⟨⟩
    have hlen : ((bytes.take 12).drop 4).length ≤ 8 := by
      rw [length_drop, length_take]
      omega
    have hlt : nBits < 256 ^ 8 := (ofLe_lt _).trans_le (Nat.pow_le_pow_right (by decide) hlen)
    rw [UInt64.toNat_ofNat_of_lt' hlt]
    exact Classical.not_not.mp hbits
  all_goals nofun

/-- A filter read from bytes can be queried unless it has hash functions and no bit, and those of
the encoder are read back as they were. -/
theorem accepted_answers_iff (bytes : Bytes) (xxh3 : Xxh3) (entries : List UInt64) :
    (∀ bloom, Bloom.fromBytes bytes = .ok bloom →
      (bloom.Answers ↔ bloom.k = 0 ∨ bloom.nBits ≠ 0)) ∧
    Bloom.fromBytes (build xxh3 entries).toBytes = .ok (build xxh3 entries) ∧
      (build xxh3 entries).Answers := by
  refine ⟨fun bloom h ↦ Bloom.answers_iff (fromBytes_length h), ?_⟩
  have hbytes := build_bytes xxh3 entries
  refine ⟨hbytes, (Bloom.answers_iff (fromBytes_length hbytes)).mpr (.inr fun h0 ↦ ?_)⟩
  have hsize := sizeFor_bounds entries.length
  have hzero : (sizeFor entries.length).toNat = 0 :=
    congrArg UInt64.toNat ((build_holds xxh3 entries).nBits.symm.trans h0)
  omega

/-- Twelve bytes are accepted as a filter without bits, and a query for any entry panics. -/
theorem empty_filter_panics :
    Bloom.fromBytes [1, 7, 0, 0, 0, 0, 0, 0, 0, 0, 0, 0] = .ok ⟨7, 0, []⟩ ∧
      (Bloom.mk 7 0 []).containsAll (fun _ seed ↦ seed) [0] = none := by
  decide

end Temps.LogAggregator.Chunk
