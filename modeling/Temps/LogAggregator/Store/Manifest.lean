import Mathlib.Data.List.Sort
import Temps.LogAggregator.Chunk.Encoder

namespace Temps.LogAggregator.Store.ManifestRepo

open LogAggregator.Types Chunk List

/-- The nanosecond at which PostgreSQL begins to count. -/
def columnEpoch : ℤ := 946684800 * 1000000000

/-- A time in a `TIMESTAMPTZ` column or parameter: whole microseconds, cut off towards the
epoch. -/
def column (t : ℤ) : ℤ := columnEpoch + (t - columnEpoch).tdiv 1000 * 1000

theorem column_mono {t t' : ℤ} (h : t ≤ t') : column t ≤ column t' := by
  have hdiv := Int.tdiv_le_tdiv (c := 1000) (by decide) (sub_le_sub_right h columnEpoch)
  unfold column
  omega

@[simp] theorem column_column (t : ℤ) : column (column t) = column t := by
  simp [column]

/-- A row of `log_chunks`; ids are the numbers that UUIDs stand for. -/
structure Manifest where
  id : ℕ
  seq : ℕ
  labels : ChunkLabels
  storageKey : Text
  formatVersion : ℕ
  footerOffset : Option ℕ
  footerLen : Option ℕ
  compressedSizeBytes : ℕ
  deletedAt : Option ℤ
  startedAt_column : column labels.startedAt = labels.startedAt
  endedAt_column : column labels.endedAt = labels.endedAt

namespace Manifest

def live (m : Manifest) : Bool := m.deletedAt.isNone

def indexed (m : Manifest) : Bool := 2 ≤ m.formatVersion

def tombstonedBefore (m : Manifest) (cutoff : ℤ) : Bool := m.deletedAt.any (· < column cutoff)

def endsWithin (m : Manifest) (start stop : ℤ) : Bool :=
  column start ≤ m.labels.endedAt && m.labels.endedAt < column stop

end Manifest

/-- The order in which a query without a complete `ORDER BY` comes upon the rows. -/
structure ScanOrder where
  order : List Manifest → List Manifest
  perm : ∀ rows, (order rows).Perm rows

structure ChunkMeta where
  id : ℕ
  labels : ChunkLabels
  storageKey : Text
  formatVersion : ℕ
  footerOffset : ℕ
  footerLen : ℕ
  compressedSizeBytes : ℕ

/-- An unsigned number written to an `INTEGER` column with `as i32` and read back with `max(0)`. -/
def throughI32 (n : ℕ) : ℕ := if n % 2 ^ 32 < 2 ^ 31 then n % 2 ^ 32 else 0

/-- The same through a `BIGINT` column. -/
def throughI64 (n : ℕ) : ℕ := if n % 2 ^ 64 < 2 ^ 63 then n % 2 ^ 64 else 0

def ChunkMeta.row (m : ChunkMeta) (seq : ℕ) : Manifest where
  id := m.id
  seq := seq
  labels := { m.labels with
    startedAt := column m.labels.startedAt
    endedAt := column m.labels.endedAt }
  storageKey := m.storageKey
  formatVersion := m.formatVersion
  footerOffset := some (throughI64 m.footerOffset)
  footerLen := some (throughI32 m.footerLen)
  compressedSizeBytes := throughI32 m.compressedSizeBytes
  deletedAt := none
  startedAt_column := column_column _
  endedAt_column := column_column _

structure Table where
  rows : List Manifest
  nextSeq : ℕ
  ids_nodup : (rows.map Manifest.id).Nodup

namespace Table

def conflict (t : Table) (m : ChunkMeta) : Option Manifest :=
  t.rows.find? fun row ↦ row.indexed && row.storageKey = m.storageKey

/-- `ON CONFLICT (storage_key) WHERE format_version >= 2 DO NOTHING RETURNING seq`; the sequence
moves on either way. -/
def insert (t : Table) (m : ChunkMeta) : Except LogAggregatorError (ℕ × Table) :=
  match t.conflict m with
  | some row => .ok (row.seq, { t with nextSeq := t.nextSeq + 1 })
  | none =>
    if h : m.id ∈ t.rows.map Manifest.id then
      .error (.database "duplicate key value violates unique constraint")
    else
      .ok (t.nextSeq,
        { rows := t.rows ++ [m.row t.nextSeq]
          nextSeq := t.nextSeq + 1
          ids_nodup := by
            rw [List.map_append, List.map_singleton]
            exact t.ids_nodup.append (List.nodup_singleton _) (by simpa [ChunkMeta.row] using h) })

def tombstone (now : ℤ) (ids : List ℕ) (m : Manifest) : Manifest :=
  if m.id ∈ ids ∧ m.live then { m with deletedAt := some (column now) } else m

@[simp] theorem tombstone_id (now : ℤ) (ids : List ℕ) (m : Manifest) :
    (tombstone now ids m).id = m.id := by
  rw [tombstone]
  split <;> rfl

def markDeleted (t : Table) (now : ℤ) (ids : List ℕ) : Table where
  rows := t.rows.map (tombstone now ids)
  nextSeq := t.nextSeq
  ids_nodup := by
    have hids : (t.rows.map (tombstone now ids)).map Manifest.id = t.rows.map Manifest.id := by
      simp [Function.comp_def]
    rw [hids]
    exact t.ids_nodup

def hardDelete (t : Table) (ids : List ℕ) : Table where
  rows := t.rows.filter fun m ↦ m.live || m.id ∉ ids
  nextSeq := t.nextSeq
  ids_nodup := t.ids_nodup.sublist (List.filter_sublist.map _)

def liveRows (t : Table) : List Manifest := t.rows.filter Manifest.live

def tombstonedBefore (t : Table) (cutoff : ℤ) (limit : ℕ) : List (ℕ × Text) :=
  let rows := t.rows.filter fun m ↦ m.tombstonedBefore cutoff &&
    t.rows.all fun sibling ↦ sibling.storageKey ≠ m.storageKey || sibling.tombstonedBefore cutoff
  ((rows.insertionSort fun m m' ↦ m.deletedAt.getD 0 ≤ m'.deletedAt.getD 0).take limit).map
    fun m ↦ (m.id, m.storageKey)

def forContainerWindow (t : Table) (scan : ScanOrder) (containerId : String) (start stop : ℤ) :
    List Manifest :=
  (scan.order (t.liveRows.filter fun m ↦ m.labels.containerId = containerId &&
    m.endsWithin start stop)).insertionSort fun m m' ↦ m.labels.endedAt ≤ m'.labels.endedAt

def fragmentedContainers (t : Table) (scan : ScanOrder) (start stop : ℤ) (minChunks limit : ℕ) :
    List String :=
  let ids := (scan.order (t.liveRows.filter (·.endsWithin start stop))).map (·.labels.containerId)
  (ids.dedup.filter fun id ↦ minChunks ≤ ids.count id).take limit

def knownStorageKeys (t : Table) (keys : List Text) : List Text :=
  (t.rows.map Manifest.storageKey).filter (· ∈ keys)

def liveAfterSeq (t : Table) (after limit : ℕ) : List Manifest :=
  ((t.liveRows.filter fun m ↦ after < m.seq).insertionSort fun m m' ↦ m.seq ≤ m'.seq).take limit

theorem mem_forContainerWindow {scan : ScanOrder} {t : Table} {containerId : String} {start stop : ℤ}
    {m : Manifest} (h : m ∈ t.forContainerWindow scan containerId start stop) :
    m ∈ t.liveRows ∧ m.labels.containerId = containerId := by
  rw [forContainerWindow, mem_insertionSort, (scan.perm _).mem_iff, mem_filter] at h
  simp only [Bool.and_eq_true, decide_eq_true_eq] at h
  exact ⟨h.1, h.2.1⟩

theorem nodup_rows (t : Table) : t.rows.Nodup := t.ids_nodup.of_map

theorem nodup_forContainerWindow (t : Table) (scan : ScanOrder) (containerId : String)
    (start stop : ℤ) : (t.forContainerWindow scan containerId start stop).Nodup := by
  rw [forContainerWindow, (perm_insertionSort _ _).nodup_iff, (scan.perm _).nodup_iff]
  exact (t.nodup_rows.filter _).filter _

theorem not_live_of_tombstonedBefore {t : Table} {cutoff : ℤ} {limit : ℕ} {entry : ℕ × Text}
    (h : entry ∈ t.tombstonedBefore cutoff limit) {row : Manifest} (hrow : row ∈ t.liveRows) :
    row.storageKey ≠ entry.2 := by
  obtain ⟨m, hm, rfl⟩ := mem_map.mp h
  have hsort := mem_of_mem_take hm
  rw [mem_insertionSort, mem_filter] at hsort
  have hall := (Bool.and_eq_true _ _ ▸ hsort.2).2
  obtain ⟨hmem, hlive⟩ := mem_filter.mp hrow
  have hsibling := all_eq_true.mp hall row hmem
  intro hkey
  rw [Manifest.live, Option.isNone_iff_eq_none] at hlive
  simp [hkey, Manifest.tombstonedBefore, hlive] at hsibling

end Table

end Temps.LogAggregator.Store.ManifestRepo
