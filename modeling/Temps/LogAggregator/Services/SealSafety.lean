import Mathlib.Algebra.Order.BigOperators.Group.List
import Temps.LogAggregator.Services.WriterKeys
import Temps.LogAggregator.Services.WriterRecovery

namespace Temps.LogAggregator.Services.ChunkWriter

open Lib Lib.Faults LogAggregator.Types Chunk Chunk.Wal Seal List

variable {J : Type} {cfg : Config J} {batchBytes : ℕ} {ident : String → ChunkIdentity}
  {rules : Rules J} {d d' : Disk J} {s : State J} {e : Entry J} {g : Generation J}
  {l : List (Entry J)}

/-- A write finds the active file of its container below the size at which it is sealed. -/
def HasRoom (cfg : Config J) (d : Disk J) (line : LogLine J) : Prop :=
  fileBytes cfg (d.wal.filter (inFile (walFileName line.containerId))) < maxGenerationBytes

instance (cfg : Config J) (d : Disk J) (line : LogLine J) : Decidable (HasRoom cfg d line) :=
  inferInstanceAs (Decidable (_ < _))

def sealRules (cfg : Config J) (batchBytes : ℕ) (ident : String → ChunkIdentity) : Rules J where
  batchBytes := batchBytes
  ident := ident
  appends := HasRoom cfg
  purges := False

/-- The line's record is on disk for good: it is synced, or its file was frozen, which syncs it. -/
def Durable (d : Disk J) (e : Entry J) : Prop :=
  e ∈ d.accepted ∧ e ∉ d.lost ∧ (e ∈ d.wal → e.serial < d.synced e.container)

instance [DecidableEq J] (d : Disk J) (e : Entry J) : Decidable (Durable d e) :=
  inferInstanceAs (Decidable (_ ∧ _))

/-- Collection runs, no seal is in flight, and the generations that were not removed are in the
manifest. -/
structure Settled (cfg : Config J) (batchBytes : ℕ) (s : State J) : Prop where
  ready : s.ready = true
  sealings : s.sealings = []
  files : ∀ g ∈ s.files, ∀ p ∈ parts cfg batchBytes g, Committed cfg s.toDisk p

def represented (s : State J) : List (Entry J) :=
  s.heads ++ (s.rows.filter ChunkRow.live).flatMap ChunkRow.entries

theorem Durable.move (h : Stored.By cfg rules d) (he : Durable d e) (hmove : Move cfg rules d d') :
    Durable d' e := by
  obtain ⟨haccepted, hlost, hsynced⟩ := he
  have hlt := h.serial_lt haccepted
  cases hmove with
  | append owns fits allowed =>
    refine ⟨mem_append_left _ haccepted, hlost, fun hwal ↦ ?_⟩
    rcases mem_append.mp hwal with hold | hnew
    · exact hsynced hold
    · rw [mem_singleton.mp hnew] at hlt
      exact absurd hlt (Nat.lt_irrefl _)
  | sync containers =>
    refine ⟨haccepted, hlost, fun hwal ↦ ?_⟩
    simp only [Disk.sync]
    split
    · exact hlt
    · exact hsynced hwal
  | rename kind withBloom nonempty =>
    exact ⟨haccepted, hlost, fun hwal ↦ hsynced (mem_of_mem_filter hwal)⟩
  | insertRow file row live | removeFile file committed | deferFile file large =>
    exact ⟨haccepted, hlost, hsynced⟩
  | cutTails cut =>
    refine ⟨haccepted, fun hmem ↦ ?_, fun hwal ↦ hsynced (mem_of_mem_filter hwal)⟩
    rcases mem_append.mp hmem with hold | hcut
    · exact hlost hold
    · obtain ⟨hwal, hnot⟩ := mem_filter.mp hcut
      have hkeeps : d.survives cut e := decide_eq_true ((hsynced hwal).trans_le (le_max_right _ _))
      rw [hkeeps] at hnot
      cases hnot
  | expire project before allowed => exact ⟨haccepted, hlost, hsynced⟩

/-- Every file can be read back as a whole, nothing was set aside, and no row is tombstoned. -/
structure Readable (cfg : Config J) (d : Disk J) : Prop where
  wal : ∀ file, fileBytes cfg (d.wal.filter (inFile file)) ≤ wholeGenerationLimit
  born : ∀ g ∈ d.born, fileBytes cfg g.entries ≤ wholeGenerationLimit
  deferred : d.deferred = []
  live : ∀ r ∈ d.rows, r.live = true

theorem fileBytes_append (l l' : List (Entry J)) :
    fileBytes cfg (l ++ l') = fileBytes cfg l + fileBytes cfg l' := by
  simp only [fileBytes, map_append, sum_append]

theorem fileBytes_sublist {l' : List (Entry J)} (h : l.Sublist l') :
    fileBytes cfg l ≤ fileBytes cfg l' :=
  (h.map (recordLen cfg)).sum_le_sum fun _ _ ↦ Nat.zero_le _

theorem Readable.move (hstored : Stored.By cfg (sealRules cfg batchBytes ident) d)
    (h : Readable cfg d) (hmove : Move cfg (sealRules cfg batchBytes ident) d d') :
    Readable cfg d' := by
  cases hmove with
  | append owns fits allowed =>
    rename_i line
    refine ⟨fun file ↦ ?_, h.born, h.deferred, h.live⟩
    simp only [Disk.append, filter_append]
    rw [fileBytes_append]
    by_cases hfile : walFileName line.containerId = file
    · subst hfile
      have hroom : fileBytes cfg (d.wal.filter (inFile (walFileName line.containerId))) <
          maxGenerationBytes := allowed
      have hrecord : fileBytes cfg [(⟨d.accepted.length, line⟩ : Entry J)] =
          recordHeaderLen + cfg.payloadLen line := by simp [fileBytes, recordLen]
      have hone : fileBytes cfg ([(⟨d.accepted.length, line⟩ : Entry J)].filter
          (inFile (walFileName line.containerId))) ≤ fileBytes cfg [⟨d.accepted.length, line⟩] :=
        fileBytes_sublist filter_sublist
      rw [wholeGenerationLimit]
      omega
    · have hnone : [(⟨d.accepted.length, line⟩ : Entry J)].filter (inFile file) = [] := by
        simp [inFile, Entry.file, Entry.container, hfile]
      rw [hnone]
      exact h.wal file
  | sync containers | removeFile file committed => exact { h with }
  | rename kind withBloom nonempty =>
    exact ⟨fun file ↦ (fileBytes_sublist (filter_sublist.filter _)).trans (h.wal file),
      forall_mem_append.mpr ⟨h.born, forall_mem_singleton.mpr (h.wal _)⟩, h.deferred, h.live⟩
  | insertRow file row live =>
    exact ⟨h.wal, h.born, h.deferred, Absorb.forall_mem_insert h.live live⟩
  | deferFile file large =>
    exact absurd large (Nat.not_lt.mpr (h.born _ (hstored.filesBorn _ file)))
  | cutTails cut =>
    exact ⟨fun file ↦ (fileBytes_sublist (filter_sublist.filter _)).trans (h.wal file), h.born,
      h.deferred, h.live⟩
  | expire project before allowed => exact absurd allowed id

theorem kept_by_moves {P : Disk J → Prop}
    (hkept : ∀ {d d'}, Stored.By cfg rules d → P d → Move cfg rules d d' → P d')
    (h : Stored.By cfg rules d) (hd : P d) (hmoves : Moves cfg rules d d') : P d' := by
  have hboth : P d' ∧ Stored.By cfg rules d' := by
    induction hmoves with
    | refl => exact ⟨hd, h⟩
    | tail _ hmove ih => exact ⟨hkept ih.2 ih.1 hmove, ih.2.move hmove⟩
  exact hboth.1

theorem readable_start : Readable cfg (State.start : State J).toDisk :=
  ⟨fun _ ↦ Nat.zero_le _, fun _ h ↦ (nomatch h), rfl, fun _ h ↦ (nomatch h)⟩

namespace Stored

variable (h : Stored cfg batchBytes ident d) (hdistinct : DistinctContents cfg batchBytes d.born)
include h hdistinct

theorem row_of_committed (hg : g ∈ d.born)
    {i : ℕ} {p : Part J} (hp : (parts cfg batchBytes g)[i]? = some p) (hc : Committed cfg d p) :
    i ∈ (d.rowsOf g.name).map ChunkRow.part := by
  obtain ⟨r, hr, hkey⟩ := hc
  obtain ⟨g', hg', hfrom⟩ := h.rows r hr
  obtain ⟨p', hp', hkey', -⟩ := hfrom.part
  obtain ⟨rfl, hi⟩ := partKey_injective h.names hdistinct hg hg' hp hp' hkey hkey'
  refine mem_map.mpr ⟨r, ?_, hi.symm⟩
  rw [Disk.rowsOf, mem_filter, decide_eq_true_eq]
  exact ⟨hr, hfrom.file⟩

theorem rows_exact (hall : ∀ g ∈ d.born, ∀ p ∈ parts cfg batchBytes g, Committed cfg d p) :
    (d.rows.flatMap ChunkRow.entries).Perm (d.born.flatMap Generation.entries) := by
  refine (h.rows_perm.flatMap_right ChunkRow.entries).trans ?_
  rw [flatMap_assoc]
  refine List.Perm.flatMap_left d.born fun g hg ↦ (h.rowsFrom hg).perm fun i hi ↦ ?_
  exact h.row_of_committed hdistinct hg (List.getElem?_eq_getElem hi)
    (hall g hg _ (getElem_mem hi))

end Stored

theorem row_of_line (h : Stored cfg batchBytes ident d)
    (hdistinct : DistinctContents cfg batchBytes d.born) (hg : g ∈ d.born)
    (hall : ∀ p ∈ parts cfg batchBytes g, Committed cfg d p) (he : e ∈ g.entries) :
    ∃ r ∈ d.rows, e ∈ r.entries := by
  rw [← flatMap_parts cfg batchBytes g] at he
  obtain ⟨p, hp, hep⟩ := mem_flatMap.mp he
  obtain ⟨i, hi⟩ := List.getElem?_of_mem hp
  obtain ⟨r, hr, hpart⟩ := mem_map.mp (h.row_of_committed hdistinct hg hi (hall p hp))
  obtain ⟨hrow, hfile⟩ := mem_filter.mp hr
  obtain ⟨p', hp', -, hentries⟩ := (h.rowFrom hg hrow (of_decide_eq_true hfile)).part
  rw [hpart, hi] at hp'
  obtain rfl := Option.some.inj hp'
  exact ⟨r, hrow, hentries ▸ hep⟩

theorem recoverPart_absorbed (h : Stored.By cfg rules s.toDisk) (hg : g ∈ s.files) {p : Part J}
    {i : ℕ} (hp : (parts cfg rules.batchBytes g)[i]? = some p)
    (hc : Committed cfg s.toDisk p) (fates : List Fate) :
    (recoverPart cfg g.name (p, i) s fates).state.toDisk = s.toDisk := by
  have hborn := h.filesBorn g hg
  obtain ⟨c, hlabels⟩ := h.owned g hborn
  have hidentity := h.identityOf_part hborn (mem_of_getElem? hp) fun e he ↦ (hlabels e he).1
  obtain ⟨r, hr, hkey⟩ := hc
  have hends : Ends (recoverPart cfg g.name (p, i) s fates) (fun _ s' ↦ s'.toDisk = s.toDisk)
      fun s' ↦ s'.toDisk = s.toDisk := by
    rw [recoverPart, hidentity]
    refine ends_commit hg hp hidentity rfl ?_
    intro r' _ hkey'
    have htaken : r'.storageKey ∈ s.rows.map ChunkRow.storageKey :=
      mem_map.mpr ⟨r, hr, Option.some.inj (hkey.symm.trans hkey')⟩
    have hsame : s.toDisk.insertRow r' = s.toDisk := by
      rw [Disk.insertRow, Absorb.insert, if_pos htaken]
    exact ⟨hsame, hsame⟩
  exact hends.state

theorem Coherent.represented_perm (h : Coherent cfg (sealRules cfg batchBytes ident) s)
    (hreadable : Readable cfg s.toDisk) (hdistinct : DistinctContents cfg batchBytes s.born)
    (hsettled : Settled cfg batchBytes s) : (represented s ++ s.lost).Perm s.accepted := by
  have hall : ∀ g ∈ s.born, ∀ p ∈ parts cfg batchBytes g, Committed cfg s.toDisk p := by
    intro g hg
    rcases h.stored.safe g hg with hfile | hdeferred | hcommitted
    · exact hsettled.files g hfile
    · rw [hreadable.deferred] at hdeferred
      cases hdeferred
    · exact hcommitted
  have hrows := Multiset.coe_eq_coe.mpr (h.stored.rows_exact hdistinct hall)
  have horigins := Multiset.coe_eq_coe.mpr h.stored.origins
  have hlive : s.rows.filter ChunkRow.live = s.rows := filter_eq_self.mpr hreadable.live
  rw [Disk.origins_eq, ← hrows] at horigins
  rw [represented, hlive, h.running hsettled.ready, ← Multiset.coe_eq_coe, ← horigins]
  simp only [← Multiset.coe_add]
  abel

theorem count_serial_eq_one (h : Stored cfg batchBytes ident d)
    (hperm : (l ++ d.lost).Perm d.accepted) (he : e ∈ d.accepted) (hlost : e ∉ d.lost) :
    (l.map Entry.serial).count e.serial = 1 := by
  have hnodup := h.serials_nodup
  have hcount := (hperm.map Entry.serial).count_eq e.serial
  have hzero : (d.lost.map Entry.serial).count e.serial = 0 := by
    rw [count_eq_zero, mem_map]
    rintro ⟨e', he', heq⟩
    have hmem : e' ∈ d.accepted := hperm.subset (mem_append_right _ he')
    exact hlost (inj_on_of_nodup_map hnodup hmem he heq ▸ he')
  rw [map_append, count_append, hzero, Nat.add_zero] at hcount
  rw [hcount]
  exact count_eq_one_of_mem hnodup (mem_map_of_mem he)

structure CrashSafe (cfg : Config J) (batchBytes : ℕ) (s : State J) (e : Entry J) : Prop where
  kept : e ∈ s.wal ∨ (∃ g ∈ s.files, e ∈ g.entries) ∨ ∃ r ∈ s.rows, r.live = true ∧ e ∈ r.entries
  once : Settled cfg batchBytes s → ((represented s).map Entry.serial).count e.serial = 1
  recovers : s.ready = false → ∀ withBloom fates,
    (recover cfg batchBytes withBloom s fates).ready = true →
      Settled cfg batchBytes (recover cfg batchBytes withBloom s fates)
  absorbed : ∀ g ∈ s.files, ∀ r ∈ s.rows, ∀ p, r.file = g.name →
    (parts cfg batchBytes g)[r.part]? = some p →
      partKey cfg p = some r.storageKey ∧
        ∀ fates, (recoverPart cfg g.name (p, r.part) s fates).state.toDisk = s.toDisk

def firstNote : Entry ℕ := ⟨0, note []⟩

def startAndWrite : List (Action ℕ) :=
  [.recover 1000 false [], .write (note []), .sync ["c1"]]

def sealAndRestart : List (Action ℕ) :=
  [.beginSeal "c1" false, .sealObject "c1" true, .sealInsert "c1" .done, .crash fun _ ↦ 0,
    .recover 1000 false []]

theorem sealAndRestart_born :
    (exec sized State.start (startAndWrite ++ sealAndRestart)).born.map Generation.name = [0] := by
  decide +kernel

def openRules (batchBytes : ℕ) (ident : String → ChunkIdentity) : Rules J where
  batchBytes := batchBytes
  ident := ident
  appends _ _ := True
  purges := False

instance decidableOpenAppends (d : Disk J) (line : LogLine J) :
    Decidable ((openRules batchBytes ident).appends d line) := .isTrue trivial

instance decidableOpenPurges : Decidable (openRules (J := J) batchBytes ident).purges := .isFalse id

def writeWhileSealing : List (Action ℕ) :=
  [.recover 1000 false [], .write (note []), .beginSeal "c1" false] ++
    List.replicate 18 (.write (note ['a'])) ++ [.sync ["c1"]]

def sealBothAndRestart : List (Action ℕ) :=
  [.sealObject "c1" true, .sealInsert "c1" .done, .sealFinish "c1" true, .beginSeal "c1" false,
    .crash fun _ ↦ 0, .recover 1000 false []]

def crowdedNote : Entry ℕ := ⟨1, note ['a']⟩

theorem crowded_admitted : (openRules 1000 noteIdent).AdmitsRun sized State.start
    (writeWhileSealing ++ sealBothAndRestart) := by
  decide +kernel

theorem distinct_of_sealed {born : List (Generation J)} (hkind : ∀ g ∈ born, g.kind = .sealed)
    (h : (born.map fun g ↦ hashInput cfg ⟨g.withBloom, g.entries, none⟩).Nodup) :
    DistinctContents cfg batchBytes born := by
  intro g hg _ g' hg' hne p hp p' hp' bytes hbytes hbytes'
  simp only [parts, hkind g hg, hkind g' hg', mem_singleton] at hp hp'
  subst hp hp'
  have heq := inj_on_of_nodup_map h hg hg' (hbytes.trans hbytes'.symm)
  exact hne (congrArg Generation.name heq.symm)

theorem crowdedNote_durable : Durable (exec sized State.start writeWhileSealing).toDisk crowdedNote := by
  decide +kernel

def afterCrowded : State ℕ := exec sized State.start (writeWhileSealing ++ sealBothAndRestart)

theorem afterCrowded_facts :
    (∀ g ∈ afterCrowded.born, g.kind = .sealed) ∧
      (afterCrowded.born.map fun g ↦ hashInput sized ⟨g.withBloom, g.entries, none⟩).Nodup ∧
      afterCrowded.ready ∧ afterCrowded.sealings.length = 0 ∧
      afterCrowded.files.length = 0 ∧
      ((represented afterCrowded).map Entry.serial).count crowdedNote.serial = 0 := by
  decide +kernel

end Temps.LogAggregator.Services.ChunkWriter
