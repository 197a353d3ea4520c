import Temps.LogAggregator.Services.WriterStored

namespace Temps.LogAggregator.Services.ChunkWriter

open Lib Lib.Fields Lib.Octets Lib.Utf8 Chunk Chunk.Wal Seal Storage.Keys List Option
open LogAggregator.Types

variable {J : Type} {cfg : Config J} {batchBytes : ℕ}

def hashInput (cfg : Config J) (p : Part J) : Option Bytes :=
  (identityOf p.entries).bind fun identity ↦
    (encodeEntries cfg identity p.entries p.withBloom p.recoveryIdentity).toOption.map
      fun chunk ↦ hashed p.recoveryIdentity chunk.2.bytes

/-- No two generations have the same contents: what is hashed for a sealed one is hashed for no part
of another. -/
def DistinctContents (cfg : Config J) (batchBytes : ℕ) (born : List (Generation J)) : Prop :=
  ∀ g ∈ born, g.kind = .sealed → ∀ g' ∈ born, g'.name ≠ g.name →
    ∀ p ∈ parts cfg batchBytes g, ∀ p' ∈ parts cfg batchBytes g', ∀ bytes,
      hashInput cfg p = some bytes → hashInput cfg p' ≠ some bytes

variable {p p' : Part J} {g g' : Generation J} {i j : ℕ} {key : Text} {bs : List (List (Entry J))}
  {bytes : Bytes}

theorem hashInput_of_partKey (h : partKey cfg p = some key) :
    ∃ bytes labels, hashInput cfg p = some bytes ∧
      key = chunkKey cfg.platform.calendar labels (cfg.platform.sha.hexDigest bytes) := by
  obtain ⟨identity, hidentity, h⟩ := bind_eq_some_iff.mp h
  obtain ⟨⟨key', encoded⟩, hencoded, rfl⟩ := map_eq_some_iff.mp h
  have hgeneration := Fallible.ok_of_toOption hencoded
  refine ⟨hashed p.recoveryIdentity encoded.bytes, encoded.footer.labels, ?_, ?_⟩
  · rw [hashInput, hidentity, bind_some, hgeneration]
    rfl
  · obtain ⟨encoded', -, hkey⟩ := Fallible.bind_eq_ok.mp hgeneration
    obtain ⟨rfl, rfl⟩ := Prod.mk.inj (Except.ok.inj hkey)
    rw [contentHash_eq]

theorem hashInput_eq_of_partKey (h : partKey cfg p = some key) (h' : partKey cfg p' = some key) :
    ∃ bytes, hashInput cfg p = some bytes ∧ hashInput cfg p' = some bytes := by
  obtain ⟨bytes, labels, hbytes, hkey⟩ := hashInput_of_partKey h
  obtain ⟨bytes', labels', hbytes', hkey'⟩ := hashInput_of_partKey h'
  have hno : ∀ bytes, '-' ∉ cfg.platform.sha.hexDigest bytes :=
    fun bytes hmem ↦ cfg.platform.sha.hex bytes _ hmem rfl
  have hdigest := suffix_of_chunkKey (hno bytes) (hno bytes') (hkey.symm.trans hkey')
  obtain rfl := cfg.platform.sha.injective hdigest
  exact ⟨bytes, hbytes, hbytes'⟩

theorem fileName_no_colon (g : Generation J) : (58 : UInt8) ∉ encode (fileName g) := by
  rw [fileName, encode, flatMap_append, flatMap_append, mem_append, mem_append]
  rintro ((hdigit | hflag) | hext)
  · have hle := (encode_digits hdigit).2
    revert hle
    decide
  · cases hbloom : g.withBloom with
    | true | false =>
      rw [hbloom] at hflag
      revert hflag
      decide
  · revert hext
    decide

theorem name_of_fileName (h : fileName g = fileName g') : g.name = g'.name := by
  have hcut : ∀ g : Generation J, ∃ rest, fileName g = digits g.name ++ '.' :: rest := by
    intro g
    cases hbloom : g.withBloom with
    | true | false => exact ⟨_, by rw [fileName, hbloom, append_assoc]; rfl⟩
  have hdot : ∀ n, '.' ∉ digits n := by
    intro n hmem
    have hdigit := digits_isDigit hmem
    revert hdigit
    decide
  obtain ⟨rest, hrest⟩ := hcut g
  obtain ⟨rest', hrest'⟩ := hcut g'
  rw [hrest, hrest'] at h
  exact digits_injective (append_sep_inj (hdot _) (hdot _) h).1

theorem fileBytes_pos (cfg : Config J) {entries : List (Entry J)} (h : entries ≠ []) :
    0 < fileBytes cfg entries := by
  cases entries with
  | nil => exact absurd rfl h
  | cons e entries =>
    simp only [fileBytes, map_cons, sum_cons, recordLen, recordHeaderLen]
    omega

theorem partsFrom_start {offset : ℕ} (h : (partsFrom cfg g offset bs)[i]? = some p) :
    ∃ start stop, p.recoveryIdentity = some (recoveryIdentity (fileName g) start stop) ∧
      start = offset + fileBytes cfg (bs.take i).flatten := by
  induction bs generalizing offset i with
  | nil => cases h
  | cons b bs ih =>
    cases i with
    | zero =>
      obtain rfl := some.inj h
      exact ⟨offset, _, rfl, rfl⟩
    | succ i =>
      obtain ⟨start, stop, hidentity, hstart⟩ := ih h
      refine ⟨start, stop, hidentity, ?_⟩
      rw [hstart, take_succ_cons, flatten_cons]
      simp only [fileBytes, map_append, sum_append, Nat.add_assoc]

theorem fileBytes_take_lt (hne : ∀ b ∈ bs, b ≠ []) (hij : i < j) (hi : i < bs.length) :
    fileBytes cfg (bs.take i).flatten < fileBytes cfg (bs.take j).flatten := by
  induction bs generalizing i j with
  | nil => exact absurd hi (Nat.not_lt_zero i)
  | cons b bs ih =>
    rw [forall_mem_cons] at hne
    have hb := fileBytes_pos cfg hne.1
    obtain ⟨j, rfl⟩ := Nat.exists_eq_succ_of_ne_zero (Nat.ne_zero_of_lt hij)
    cases i with
    | zero =>
      simp only [fileBytes, take_zero, flatten_nil, map_nil, sum_nil,
        take_succ_cons, flatten_cons, map_append, sum_append] at hb ⊢
      omega
    | succ i =>
      have hrest := ih hne.2 (Nat.lt_of_succ_lt_succ hij) (Nat.lt_of_succ_lt_succ hi)
      simp only [fileBytes, take_succ_cons, flatten_cons, map_append, sum_append] at hrest ⊢
      omega

theorem length_partsFrom (g : Generation J) (offset : ℕ) (bs : List (List (Entry J))) :
    (partsFrom cfg g offset bs).length = bs.length := by
  induction bs generalizing offset with
  | nil => rfl
  | cons b bs ih => rw [partsFrom, length_cons, ih, length_cons]

theorem parts_recovery (hkind : g.kind = .recovery) (h : (parts cfg batchBytes g)[i]? = some p) :
    i < (batches cfg batchBytes g.entries).length ∧
      ∃ stop, p.recoveryIdentity = some (recoveryIdentity (fileName g)
        (fileBytes cfg ((batches cfg batchBytes g.entries).take i).flatten) stop) := by
  simp only [parts, hkind] at h
  obtain ⟨start, stop, hidentity, rfl⟩ := partsFrom_start h
  rw [Nat.zero_add] at hidentity
  exact ⟨length_partsFrom g 0 (batches cfg batchBytes g.entries) ▸
    (List.getElem?_eq_some_iff.mp h).1, stop, hidentity⟩

theorem parts_sealed (hkind : g.kind = .sealed) (h : (parts cfg batchBytes g)[i]? = some p) :
    i = 0 := by
  simp only [parts, hkind] at h
  have hi := (List.getElem?_eq_some_iff.mp h).1
  rw [length_singleton] at hi
  omega

theorem hashInput_eq_hashed (h : hashInput cfg p = some bytes) :
    ∃ chunk, bytes = hashed p.recoveryIdentity chunk := by
  obtain ⟨identity, -, h⟩ := bind_eq_some_iff.mp h
  obtain ⟨chunk, -, rfl⟩ := map_eq_some_iff.mp h
  exact ⟨_, rfl⟩

theorem recovered_parts_distinct (hkind : g.kind = .recovery) (hkind' : g'.kind = .recovery)
    (hp : (parts cfg batchBytes g)[i]? = some p)
    (hp' : (parts cfg batchBytes g')[j]? = some p') (hbytes : hashInput cfg p = some bytes)
    (hbytes' : hashInput cfg p' = some bytes) : g.name = g'.name ∧ (g = g' → i = j) := by
  obtain ⟨hi, stop, hidentity⟩ := parts_recovery hkind hp
  obtain ⟨hj, stop', hidentity'⟩ := parts_recovery hkind' hp'
  obtain ⟨chunk, rfl⟩ := hashInput_eq_hashed hbytes
  obtain ⟨chunk', heq⟩ := hashInput_eq_hashed hbytes'
  rw [hidentity, hidentity'] at heq
  have hname := name_of_hashed (fileName_no_colon g) (fileName_no_colon g') heq
  refine ⟨name_of_fileName hname, ?_⟩
  rintro rfl
  have hdigest := congrArg cfg.platform.sha.hexDigest heq
  have hstart := (contentHash_recovered hdigest).1
  have hne : ∀ b ∈ batches cfg batchBytes g.entries, b ≠ [] := fun b hb ↦
    Greedy.Scale.ne_nil_of_mem_segments _ _ hb
  rcases Nat.lt_trichotomy i j with hlt | heq | hgt
  · exact absurd hstart (fileBytes_take_lt hne hlt hi).ne
  · exact heq
  · exact absurd hstart (fileBytes_take_lt hne hgt hj).ne'

theorem partKey_injective {born : List (Generation J)} (hnames : (born.map Generation.name).Nodup)
    (hdistinct : DistinctContents cfg batchBytes born) (hg : g ∈ born) (hg' : g' ∈ born)
    (hp : (parts cfg batchBytes g)[i]? = some p) (hp' : (parts cfg batchBytes g')[j]? = some p')
    (hkey : partKey cfg p = some key) (hkey' : partKey cfg p' = some key) : g = g' ∧ i = j := by
  obtain ⟨bytes, hbytes, hbytes'⟩ := hashInput_eq_of_partKey hkey hkey'
  have hmem := mem_of_getElem? hp
  have hmem' := mem_of_getElem? hp'
  have hsame : g.name = g'.name → g = g' := inj_on_of_nodup_map hnames hg hg'
  by_cases hname : g.name = g'.name
  · obtain rfl := hsame hname
    refine ⟨rfl, ?_⟩
    cases hkind : g.kind with
    | sealed => rw [parts_sealed hkind hp, parts_sealed hkind hp']
    | recovery => exact (recovered_parts_distinct hkind hkind hp hp' hbytes hbytes').2 rfl
  · cases hkind : g.kind with
    | sealed =>
      exact absurd hbytes' (hdistinct g hg hkind g' hg' (Ne.symm hname) p hmem p' hmem' bytes hbytes)
    | recovery =>
      cases hkind' : g'.kind with
      | sealed =>
        exact absurd hbytes (hdistinct g' hg' hkind' g hg hname p' hmem' p hmem bytes hbytes')
      | recovery =>
        exact absurd (recovered_parts_distinct hkind hkind' hp hp' hbytes hbytes').1 hname

end Temps.LogAggregator.Services.ChunkWriter
