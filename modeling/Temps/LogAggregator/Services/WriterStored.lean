import Mathlib.Algebra.Order.Group.Multiset
import Mathlib.Data.List.Perm.Subperm
import Mathlib.Data.List.Range
import Mathlib.Tactic.Abel
import Temps.LogAggregator.Services.ChunkWriter

namespace Temps.LogAggregator.Services.ChunkWriter

open Lib LogAggregator.Types Chunk Seal List

variable {J : Type} {cfg : Config J} {batchBytes : ℕ}

theorem flatMap_partsFrom (g : Generation J) (offset : ℕ) (bs : List (List (Entry J))) :
    (partsFrom cfg g offset bs).flatMap Part.entries = bs.flatten := by
  induction bs generalizing offset with
  | nil => rfl
  | cons b bs ih => rw [partsFrom, flatMap_cons, ih, flatten_cons]

variable {g : Generation J} {rows : List (ChunkRow J)} {p : Part J} {r r' : ChunkRow J}

theorem mem_partsFrom {offset : ℕ} {bs : List (List (Entry J))}
    (h : p ∈ partsFrom cfg g offset bs) : p.entries ∈ bs := by
  induction bs generalizing offset with
  | nil => cases h
  | cons b bs ih =>
    rcases mem_cons.mp h with rfl | h
    · exact mem_cons_self
    · exact mem_cons_of_mem _ (ih h)

theorem flatMap_parts (cfg : Config J) (batchBytes : ℕ) (g : Generation J) :
    (parts cfg batchBytes g).flatMap Part.entries = g.entries := by
  rw [parts]
  cases g.kind with
  | sealed => simp
  | recovery => simp only [flatMap_partsFrom, batches, Greedy.Scale.flatten_segments]

theorem ne_nil_of_mem_parts (hg : g.entries ≠ []) (h : p ∈ parts cfg batchBytes g) :
    p.entries ≠ [] := by
  rw [parts] at h
  cases hk : g.kind with
  | sealed =>
    simp only [hk, mem_singleton] at h
    rw [h]
    exact hg
  | recovery =>
    simp only [hk] at h
    exact Greedy.Scale.ne_nil_of_mem_segments _ _ (mem_partsFrom h)

def partKey (cfg : Config J) (p : Part J) : Option Text :=
  (identityOf p.entries).bind fun identity ↦
    (encodeEntries cfg identity p.entries p.withBloom p.recoveryIdentity).toOption.map Prod.fst

theorem partKey_eq {identity : ChunkIdentity} {key : Text} {encoded : EncodedChunk}
    (hidentity : identityOf p.entries = some identity)
    (h : encodeEntries cfg identity p.entries p.withBloom p.recoveryIdentity = .ok (key, encoded)) :
    partKey cfg p = some key := by
  rw [partKey, hidentity, Option.bind_some, h]
  rfl

def RowFrom (cfg : Config J) (batchBytes : ℕ) (g : Generation J) (r : ChunkRow J) : Prop :=
  ∃ p identity, (parts cfg batchBytes g)[r.part]? = some p ∧ identityOf p.entries = some identity ∧
    partKey cfg p = some r.storageKey ∧
    r = { rowOf identity r.storageKey p.entries g.name r.part with live := r.live }

section

variable (h : RowFrom cfg batchBytes g r)
include h

theorem RowFrom.file : r.file = g.name := by
  obtain ⟨p, identity, -, -, -, hr⟩ := h
  rw [hr]
  rfl

theorem RowFrom.part :
    ∃ p, (parts cfg batchBytes g)[r.part]? = some p ∧ partKey cfg p = some r.storageKey ∧
      r.entries = p.entries := by
  obtain ⟨p, identity, hp, -, hkey, hr⟩ := h
  refine ⟨p, hp, hkey, ?_⟩
  rw [hr]
  rfl

theorem RowFrom.withLive (hr' : ∃ live, r' = { r with live := live }) :
    RowFrom cfg batchBytes g r' := by
  obtain ⟨p, identity, hp, hidentity, hkey, hr⟩ := h
  obtain ⟨live, rfl⟩ := hr'
  exact ⟨p, identity, hp, hidentity, hkey,
    congrArg (fun row : ChunkRow J ↦ { row with live := live }) hr⟩

end

def partEntries (cfg : Config J) (batchBytes : ℕ) (g : Generation J) (i : ℕ) : List (Entry J) :=
  ((parts cfg batchBytes g)[i]?.map Part.entries).getD []

theorem flatMap_range_parts (cfg : Config J) (batchBytes : ℕ) (g : Generation J) :
    (List.range (parts cfg batchBytes g).length).flatMap (partEntries cfg batchBytes g) =
      g.entries := by
  have hparts : ∀ ps : List (Part J), (List.range ps.length).flatMap
      (fun i ↦ (ps[i]?.map Part.entries).getD []) = ps.flatMap Part.entries := by
    intro ps
    induction ps with
    | nil => rfl
    | cons p ps ih =>
      rw [length_cons, range_succ_eq_map, flatMap_cons, flatMap_map]
      simpa using ih
  rw [← flatMap_parts cfg batchBytes g, ← hparts]
  rfl

structure RowsFrom (cfg : Config J) (batchBytes : ℕ) (g : Generation J)
    (rows : List (ChunkRow J)) : Prop where
  each : ∀ r ∈ rows, RowFrom cfg batchBytes g r
  nodup : (rows.map ChunkRow.part).Nodup

section

variable (h : RowsFrom cfg batchBytes g rows)
include h

theorem RowsFrom.flatMap_eq :
    rows.flatMap ChunkRow.entries =
      (rows.map ChunkRow.part).flatMap (partEntries cfg batchBytes g) := by
  rw [flatMap_map]
  apply flatMap_congr
  intro r hr
  obtain ⟨p, hp, -, hentries⟩ := (h.each r hr).part
  rw [partEntries, hp, hentries]
  rfl

theorem RowsFrom.part_lt {i : ℕ} (hi : i ∈ rows.map ChunkRow.part) :
    i ∈ List.range (parts cfg batchBytes g).length := by
  obtain ⟨r, hr, rfl⟩ := mem_map.mp hi
  obtain ⟨p, hp, -⟩ := (h.each r hr).part
  exact mem_range.mpr (List.getElem?_eq_some_iff.mp hp).1

theorem RowsFrom.subperm : (rows.flatMap ChunkRow.entries).Subperm g.entries := by
  rw [h.flatMap_eq, ← flatMap_range_parts cfg batchBytes g]
  obtain ⟨l, hperm, hsub⟩ := subperm_of_subset h.nodup fun i hi ↦ h.part_lt hi
  exact ⟨_, hperm.flatMap_right _, hsub.flatMap _⟩

theorem RowsFrom.perm (hall : ∀ i < (parts cfg batchBytes g).length, i ∈ rows.map ChunkRow.part) :
    (rows.flatMap ChunkRow.entries).Perm g.entries := by
  rw [h.flatMap_eq, ← flatMap_range_parts cfg batchBytes g]
  apply List.Perm.flatMap_right
  rw [perm_ext_iff_of_nodup h.nodup nodup_range]
  intro i
  exact ⟨h.part_lt, fun hi ↦ hall i (mem_range.mp hi)⟩

end

variable {ident : String → ChunkIdentity} {d d' : Disk J}

namespace Disk

/-- Where an accepted line went: it was lost with an unsynced tail, it waits in an active file, or
its file became a generation. -/
def origins (d : Disk J) : List (Entry J) :=
  d.lost ++ d.wal ++ d.born.flatMap Generation.entries

def rowsOf (d : Disk J) (name : ℕ) : List (ChunkRow J) := d.rows.filter fun r ↦ r.file = name

end Disk

def Committed (cfg : Config J) (d : Disk J) (p : Part J) : Prop :=
  ∃ r ∈ d.rows, partKey cfg p = some r.storageKey

def KeysKept (d d' : Disk J) : Prop := ∀ r ∈ d.rows, ∃ r' ∈ d'.rows, r'.storageKey = r.storageKey

theorem KeysKept.of_eq (h : d'.rows = d.rows) : KeysKept d d' := fun r hr ↦ ⟨r, h ▸ hr, rfl⟩

theorem Committed.mono (h : Committed cfg d p) (hkeys : KeysKept d d') : Committed cfg d' p := by
  obtain ⟨r, hr, hkey⟩ := h
  obtain ⟨r', hr', heq⟩ := hkeys r hr
  exact ⟨r', hr', heq ▸ hkey⟩

/-- A generation leaves the disk only after each of its parts has a row. -/
def Safe (cfg : Config J) (batchBytes : ℕ) (d : Disk J) (g : Generation J) : Prop :=
  g ∈ d.files ∨ g ∈ d.deferred ∨ ∀ p ∈ parts cfg batchBytes g, Committed cfg d p

theorem Safe.mono (h : Safe cfg batchBytes d g)
    (hfiles : g ∈ d.files → g ∈ d'.files) (hdeferred : g ∈ d.deferred → g ∈ d'.deferred)
    (hkeys : KeysKept d d') : Safe cfg batchBytes d' g := by
  rcases h with h | h | h
  · exact .inl (hfiles h)
  · exact .inr (.inl (hdeferred h))
  · exact .inr (.inr fun p hp ↦ (h p hp).mono hkeys)

structure Stored (cfg : Config J) (batchBytes : ℕ) (ident : String → ChunkIdentity)
    (d : Disk J) : Prop where
  serials : d.accepted.map Entry.serial = List.range d.accepted.length
  origins : d.origins.Perm d.accepted
  names : (d.born.map Generation.name).Nodup
  fresh : ∀ g ∈ d.born, g.name < d.nextName
  nonempty : ∀ g ∈ d.born, g.entries ≠ []
  owned : ∀ g ∈ d.born, ∃ c, ∀ e ∈ g.entries, e.container = c ∧ identityFromLine e.line = ident c
  labelled : ∀ e ∈ d.wal, identityFromLine e.line = ident e.container
  apart : ∀ e ∈ d.accepted, ∀ e' ∈ d.accepted, e.file = e'.file → e.container = e'.container
  filesNodup : d.files.Nodup
  filesBorn : ∀ g ∈ d.files, g ∈ d.born
  deferredBorn : ∀ g ∈ d.deferred, g ∈ d.born
  safe : ∀ g ∈ d.born, Safe cfg batchBytes d g
  rows : ∀ r ∈ d.rows, ∃ g ∈ d.born, RowFrom cfg batchBytes g r
  partsNodup : (d.rows.map fun r ↦ (r.file, r.part)).Nodup

theorem stored_start : Stored cfg batchBytes ident (State.start : State J).toDisk where
  serials := rfl
  origins := List.Perm.refl _
  names := nodup_nil
  fresh := fun _ h ↦ (nomatch h)
  nonempty := fun _ h ↦ (nomatch h)
  owned := fun _ h ↦ (nomatch h)
  labelled := fun _ h ↦ (nomatch h)
  apart := fun _ h ↦ (nomatch h)
  filesNodup := nodup_nil
  filesBorn := fun _ h ↦ (nomatch h)
  deferredBorn := fun _ h ↦ (nomatch h)
  safe := fun _ h ↦ (nomatch h)
  rows := fun _ h ↦ (nomatch h)
  partsNodup := nodup_nil

theorem Disk.origins_eq (d : Disk J) : (d.origins : Multiset (Entry J)) =
    d.lost + d.wal + (d.born.flatMap Generation.entries : List (Entry J)) := by
  simp only [Disk.origins, ← Multiset.coe_add]

theorem coe_filter_add {α : Type} (p : α → Bool) (l : List α) :
    ((l.filter p : List α) : Multiset α) + (l.filter fun a ↦ !p a : List α) = l := by
  rw [Multiset.coe_add, Multiset.coe_eq_coe]
  exact filter_append_perm p l

theorem keysKept_insertRow (d : Disk J) (r : ChunkRow J) : KeysKept d (d.insertRow r) := by
  intro r' hr'
  exact ⟨r', Absorb.subset_insert _ _ hr', rfl⟩

theorem committed_insertRow (h : partKey cfg p = some r.storageKey)
    (d : Disk J) : Committed cfg (d.insertRow r) p := by
  simp only [Disk.insertRow, Absorb.insert]
  split
  · rename_i htaken
    obtain ⟨r', hr', hkey⟩ := mem_map.mp htaken
    exact ⟨r', hr', hkey ▸ h⟩
  · exact ⟨r, mem_append_right _ (mem_singleton_self r), h⟩

namespace Stored

variable (h : Stored cfg batchBytes ident d) {g' : Generation J}
include h

theorem name_injective (hg : g ∈ d.born) (hg' : g' ∈ d.born) (heq : g.name = g'.name) : g = g' :=
  inj_on_of_nodup_map h.names hg hg' heq

theorem rowFrom (hg : g ∈ d.born) (hr : r ∈ d.rows) (hfile : r.file = g.name) :
    RowFrom cfg batchBytes g r := by
  obtain ⟨g', hg', hfrom⟩ := h.rows r hr
  rwa [h.name_injective hg hg' (hfile.symm.trans hfrom.file)]

theorem rowsFrom (hg : g ∈ d.born) : RowsFrom cfg batchBytes g (d.rowsOf g.name) := by
  have hfile : ∀ r ∈ d.rowsOf g.name, r ∈ d.rows ∧ r.file = g.name := by
    simp [Disk.rowsOf]
  refine ⟨fun r hr ↦ h.rowFrom hg (hfile r hr).1 (hfile r hr).2, ?_⟩
  have hpairs : ((d.rowsOf g.name).map fun r ↦ (r.file, r.part)).Nodup :=
    h.partsNodup.sublist (filter_sublist.map _)
  have hmap : ((d.rowsOf g.name).map fun r ↦ (r.file, r.part)) =
      ((d.rowsOf g.name).map ChunkRow.part).map fun i ↦ (g.name, i) := by
    rw [map_map]
    apply map_congr_left
    intro r hr
    rw [(hfile r hr).2]
    rfl
  rw [hmap] at hpairs
  exact hpairs.of_map

theorem accepted_of_wal {e : Entry J} (he : e ∈ d.wal) : e ∈ d.accepted :=
  h.origins.mem_iff.mp (mem_append_left _ (mem_append_right _ he))

theorem inFile_eq {e e' : Entry J} (he : e ∈ d.wal) (he' : e' ∈ d.wal) :
    inFile e.file e' = inContainer e.container e' := by
  rw [inFile, inContainer, decide_eq_decide]
  exact ⟨h.apart e' (h.accepted_of_wal he') e (h.accepted_of_wal he), congrArg walFileName⟩

theorem append {line : LogLine J} (hline : identityFromLine line = ident line.containerId)
    (hfile : ∀ e ∈ d.accepted, e.file = walFileName line.containerId →
      e.container = line.containerId) :
    Stored cfg batchBytes ident (d.append ⟨d.accepted.length, line⟩) where
  __ := h
  serials := by
    simp only [Disk.append, map_append, h.serials, length_append]
    exact range_succ.symm
  origins := by
    have horigins := Multiset.coe_eq_coe.mpr h.origins
    rw [Disk.origins_eq] at horigins
    rw [← Multiset.coe_eq_coe, Disk.origins_eq]
    simp only [Disk.append, ← Multiset.coe_add, ← horigins]
    abel
  labelled := forall_mem_append.mpr ⟨h.labelled, forall_mem_singleton.mpr hline⟩
  apart := forall_mem_append.mpr
    ⟨fun e he ↦ forall_mem_append.mpr ⟨h.apart e he, forall_mem_singleton.mpr (hfile e he)⟩,
      forall_mem_singleton.mpr (forall_mem_append.mpr
        ⟨fun e he heq ↦ (hfile e he heq.symm).symm, forall_mem_singleton.mpr fun _ ↦ rfl⟩)⟩

theorem rename {file : Text} (kind : Kind) (withBloom : Bool)
    (hne : d.wal.filter (inFile file) ≠ []) :
    Stored cfg batchBytes ident (d.renameActive file kind withBloom) := by
  have hnew : ∀ g ∈ d.born, g.name ≠ d.nextName := fun g hg ↦ (h.fresh g hg).ne
  have hborn : ∀ {P : Generation J → Prop}, (∀ g ∈ d.born, P g) → P (d.frozen file kind withBloom) →
      ∀ g ∈ (d.renameActive file kind withBloom).born, P g :=
    fun hold hlast ↦ forall_mem_append.mpr ⟨hold, forall_mem_singleton.mpr hlast⟩
  refine ⟨h.serials, ?_, ?_, ?_, ?_, ?_, fun e he ↦ h.labelled e (mem_of_mem_filter he), h.apart,
    ?_, ?_, fun g hg ↦ mem_append_left _ (h.deferredBorn g hg), ?_, ?_, h.partsNodup⟩
  · have horigins := Multiset.coe_eq_coe.mpr h.origins
    rw [Disk.origins_eq, ← coe_filter_add (inFile file) d.wal] at horigins
    rw [← Multiset.coe_eq_coe, Disk.origins_eq]
    simp only [Disk.renameActive, flatMap_append, flatMap_singleton,
      ← Multiset.coe_add, ← horigins]
    abel
  · simp only [Disk.renameActive, map_append]
    refine h.names.append (nodup_singleton _) ?_
    intro name hname hfrozen
    obtain ⟨g, hg, rfl⟩ := mem_map.mp hname
    exact hnew g hg (mem_singleton.mp hfrozen)
  · exact hborn (fun g hg ↦ (h.fresh g hg).trans (Nat.lt_succ_self _)) (Nat.lt_succ_self _)
  · exact hborn h.nonempty hne
  · obtain ⟨first, hfirst⟩ := exists_mem_of_ne_nil _ hne
    obtain ⟨hwal, hfile⟩ := mem_filter.mp hfirst
    obtain rfl : first.file = file := of_decide_eq_true hfile
    refine hborn h.owned ⟨first.container, fun e he ↦ ?_⟩
    obtain ⟨hwal', hsame⟩ := mem_filter.mp he
    rw [h.inFile_eq hwal hwal'] at hsame
    have hcontainer : e.container = first.container := of_decide_eq_true hsame
    exact ⟨hcontainer, by rw [h.labelled e hwal', hcontainer]⟩
  · refine h.filesNodup.append (nodup_singleton _) ?_
    intro g hg hlast
    exact hnew g (h.filesBorn g hg) (congrArg Generation.name (mem_singleton.mp hlast))
  · exact forall_mem_append.mpr ⟨fun g hg ↦ mem_append_left _ (h.filesBorn g hg),
      fun g ↦ mem_append_right _⟩
  · refine hborn (fun g hg ↦ ?_) (.inl (mem_append_right _ (mem_singleton_self _)))
    exact (h.safe g hg).mono (mem_append_left _) id (.of_eq rfl)
  · intro r hr
    obtain ⟨g, hg, hfrom⟩ := h.rows r hr
    exact ⟨g, mem_append_left _ hg, hfrom⟩

section

variable (hg : g ∈ d.born)
include hg

theorem row_taken (hr : RowFrom cfg batchBytes g r) (hr' : r' ∈ d.rows)
    (heq : (r'.file, r'.part) = (r.file, r.part)) : r.storageKey = r'.storageKey := by
  obtain ⟨hfile, hpart⟩ := Prod.mk.inj heq
  obtain ⟨p, hp, hkey, -⟩ := hr.part
  obtain ⟨p', hp', hkey', -⟩ := (h.rowFrom hg hr' (hfile.trans hr.file)).part
  rw [hpart, hp] at hp'
  obtain rfl := Option.some.inj hp'
  exact Option.some.inj (hkey.symm.trans hkey')

theorem insertRow (hr : RowFrom cfg batchBytes g r) :
    Stored cfg batchBytes ident (d.insertRow r) := by
  refine { h with
    safe := fun g hg ↦ (h.safe g hg).mono id id (keysKept_insertRow d r)
    rows := Absorb.forall_mem_insert h.rows ⟨g, hg, hr⟩
    partsNodup := ?_ }
  rw [Disk.insertRow, Absorb.insert]
  split
  · exact h.partsNodup
  · rename_i hfree
    rw [map_append]
    refine h.partsNodup.append (nodup_singleton _) ?_
    intro pair hold hnew
    obtain ⟨r', hr', rfl⟩ := mem_map.mp hold
    have hkey := h.row_taken hg hr hr' (mem_singleton.mp hnew)
    exact hfree (mem_map.mpr ⟨r', hr', hkey.symm⟩)

theorem mem_removeFile (hg' : g' ∈ d.files) (hne : g' ≠ g) : g' ∈ (d.removeFile g.name).files :=
  mem_filter.mpr ⟨hg', decide_eq_true fun heq ↦ hne (h.name_injective (h.filesBorn g' hg') hg heq)⟩

theorem removeFile (hall : ∀ p ∈ parts cfg batchBytes g, Committed cfg d p) :
    Stored cfg batchBytes ident (d.removeFile g.name) := by
  refine { h with
    filesNodup := h.filesNodup.filter _
    filesBorn := fun g hg ↦ h.filesBorn g (mem_of_mem_filter hg)
    safe := fun g' hg' ↦ ?_ }
  by_cases heq : g' = g
  · exact .inr (.inr (heq ▸ hall))
  · exact (h.safe g' hg').mono (fun hfile ↦ h.mem_removeFile hg hfile heq) id (.of_eq rfl)

theorem deferFile : Stored cfg batchBytes ident (d.deferFile g) := by
  refine { h with
    filesNodup := h.filesNodup.filter _
    filesBorn := fun g hg ↦ h.filesBorn g (mem_of_mem_filter hg)
    deferredBorn := forall_mem_append.mpr ⟨h.deferredBorn, forall_mem_singleton.mpr hg⟩
    safe := fun g' hg' ↦ ?_ }
  by_cases heq : g' = g
  · exact .inr (.inl (mem_append_right _ (mem_singleton.mpr heq)))
  · exact (h.safe g' hg').mono (fun hfile ↦ h.mem_removeFile hg hfile heq)
      (mem_append_left _) (.of_eq rfl)

end

theorem cutTails (cut : String → ℕ) : Stored cfg batchBytes ident (d.cutTails cut) := by
  refine { h with
    origins := ?_
    labelled := fun e he ↦ h.labelled e (mem_of_mem_filter he) }
  have horigins := Multiset.coe_eq_coe.mpr h.origins
  rw [Disk.origins_eq, ← coe_filter_add (d.survives cut) d.wal] at horigins
  rw [← Multiset.coe_eq_coe, Disk.origins_eq]
  simp only [Disk.cutTails, ← Multiset.coe_add, ← horigins]
  abel

theorem mapRows {f : ChunkRow J → ChunkRow J} (hf : ∀ r, ∃ live, f r = { r with live := live }) :
    Stored cfg batchBytes ident (d.mapRows f) := by
  have hfile : ∀ r, (f r).file = r.file := fun r ↦ by obtain ⟨live, hr⟩ := hf r; rw [hr]
  have hpart : ∀ r, (f r).part = r.part := fun r ↦ by obtain ⟨live, hr⟩ := hf r; rw [hr]
  have hkeys : KeysKept d (d.mapRows f) := by
    intro r hr
    obtain ⟨live, hlive⟩ := hf r
    exact ⟨f r, mem_map_of_mem hr, by rw [hlive]⟩
  refine { h with
    safe := fun g hg ↦ (h.safe g hg).mono id id hkeys
    rows := ?_
    partsNodup := ?_ }
  · intro r hr
    obtain ⟨r, hold, rfl⟩ := mem_map.mp hr
    obtain ⟨g, hg, hfrom⟩ := h.rows r hold
    exact ⟨g, hg, hfrom.withLive (hf r)⟩
  · simpa only [Disk.mapRows, map_map, Function.comp_def, hfile, hpart] using h.partsNodup

theorem serial_lt {e : Entry J} (he : e ∈ d.accepted) : e.serial < d.accepted.length := by
  have hmem : e.serial ∈ d.accepted.map Entry.serial := mem_map_of_mem he
  rwa [h.serials, mem_range] at hmem

theorem serials_nodup : (d.accepted.map Entry.serial).Nodup := by
  rw [h.serials]
  exact nodup_range

theorem rows_perm : d.rows.Perm (d.born.flatMap fun g ↦ d.rowsOf g.name) := by
  have hnodup : d.rows.Nodup := h.partsNodup.of_map
  have hmem : ∀ name r, r ∈ d.rowsOf name ↔ r ∈ d.rows ∧ r.file = name := by
    simp [Disk.rowsOf]
  have hsplit : (d.born.flatMap fun g ↦ d.rowsOf g.name).Nodup := by
    refine nodup_flatMap.mpr ⟨fun g _ ↦ hnodup.filter _, ?_⟩
    refine (pairwise_map.mp h.names).imp fun hne r hr hr' ↦ ?_
    exact hne (((hmem _ r).mp hr).2.symm.trans ((hmem _ r).mp hr').2)
  rw [perm_ext_iff_of_nodup hnodup hsplit]
  intro r
  rw [mem_flatMap]
  constructor
  · intro hr
    obtain ⟨g, hg, hfrom⟩ := h.rows r hr
    exact ⟨g, hg, (hmem _ r).mpr ⟨hr, hfrom.file⟩⟩
  · rintro ⟨g, -, hr⟩
    exact ((hmem _ r).mp hr).1

end Stored

end Temps.LogAggregator.Services.ChunkWriter
