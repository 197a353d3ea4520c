import Temps.LogAggregator.Chunk.WalScan
import Temps.LogAggregator.Services.Seal

namespace Temps.LogAggregator.Services.WalRetry

open Lib Lib.Fallible Lib.Greedy Lib.Octets Chunk Chunk.Wal Storage.Keys Seal List Option
open LogAggregator.Types

variable {J : Type} {p : Platform J} {batch : List (Item J)} {batchBytes : ℕ}

/-- A `.recovery-wal` file: an active tail that a restart has frozen. -/
structure RecoveryWal where
  name : Text
  bytes : Bytes
  withBloom : Bool

def RecoveryWal.open (file : RecoveryWal) : RecoveryFile :=
  RecoveryFile.open file.name file.bytes file.withBloom true

def batchesOf (p : Platform J) (root : String) (file : RecoveryWal) (batchBytes : ℕ) :
    Except LogAggregatorError (List (RecoveredStream J)) :=
  streams p.records root (max batchBytes 1) (file.bytes.length + 1) file.open

/-- A pass that stops after `k` commits, or that runs on until the file is gone, and then a pass
over what is left. -/
def retry (p : Platform J) (root : String) (file : RecoveryWal) (first : ℕ) (stop : Option ℕ)
    (second : ℕ) : Except LogAggregatorError (List (Row J)) := do
  let streams ← batchesOf p root file first
  match stop with
  | none => streams.foldlM (recoverStream p) []
  | some k => do
    let rows ← (streams.take k).foldlM (recoverStream p) []
    let streams ← batchesOf p root file second
    streams.foldlM (recoverStream p) rows

def items (p : Platform J) (file : RecoveryWal) : List (Item J) :=
  (scanFile p.records file.bytes 0).1

def batches (batchBytes : ℕ) (items : List (Item J)) : List (List (Item J)) :=
  payloadScale.segments (exceeds (max batchBytes 1)) items

def payload (batch : List (Item J)) : ℕ :=
  batch.foldl (fun load item ↦ saturatingAdd load item.len) 0

/-- A batch that a pass with `batchBytes` cuts as well when it starts at the same record. -/
def Repeatable (batchBytes : ℕ) (batch rest : List (Item J)) : Prop :=
  (batch.length = 1 ∨ payload batch ≤ max batchBytes 1) ∧
    ∀ item ∈ rest.head?, max batchBytes 1 < saturatingAdd (payload batch) item.len

theorem saturatingAdd_le_foldl (load : ℕ) (batch : List (Item J)) (h : load ≤ usizeMax) :
    load ≤ batch.foldl (fun load item ↦ saturatingAdd load item.len) load ∧
      batch.foldl (fun load item ↦ saturatingAdd load item.len) load ≤ usizeMax := by
  induction batch generalizing load with
  | nil => exact ⟨le_rfl, h⟩
  | cons item batch ih =>
    have hnext : saturatingAdd load item.len ≤ usizeMax := Nat.min_le_right _ _
    obtain ⟨hle, hmax⟩ := ih _ hnext
    refine ⟨le_trans ?_ hle, hmax⟩
    exact le_min (Nat.le_add_right _ _) h

theorem runs_iff (batchBytes load : ℕ) (batch : List (Item J)) :
    payloadScale.Runs (exceeds batchBytes) load batch ↔ batch = [] ∨
      batch.foldl (fun load item ↦ saturatingAdd load item.len) load ≤ batchBytes := by
  induction batch generalizing load with
  | nil => simp [Scale.Runs]
  | cons item batch ih =>
    have hnext : saturatingAdd load item.len ≤ usizeMax := Nat.min_le_right _ _
    have hle := (saturatingAdd_le_foldl _ batch hnext).1
    have hover : exceeds batchBytes load item = false ↔ saturatingAdd load item.len ≤ batchBytes := by
      simp [exceeds]
    rw [Scale.Runs, hover, ih]
    cases batch with
    | nil => simp
    | cons other batch =>
      simp only [reduceCtorEq, false_or]
      constructor
      · exact fun h ↦ h.2
      · exact fun h ↦ ⟨le_trans hle h, h⟩

theorem repeatable_iff {rest : List (Item J)} (hne : batch ≠ []) :
    Repeatable batchBytes batch rest ↔ payloadScale.Fits (exceeds (max batchBytes 1)) batch ∧
        payloadScale.Closed (exceeds (max batchBytes 1)) batch rest := by
  cases batch with
  | nil => exact absurd rfl hne
  | cons item batch =>
    have hload : payload (item :: batch) =
        batch.foldl payloadScale.add (payloadScale.start item) := rfl
    have hfits : (item :: batch).length = 1 ∨ payload (item :: batch) ≤ max batchBytes 1 ↔
        payloadScale.Fits (exceeds (max batchBytes 1)) (item :: batch) := by
      rw [Scale.Fits, runs_iff]
      simp [payload, payloadScale]
    rw [Repeatable, hfits, Scale.closed_iff, hload]
    simp [exceeds]

def BatchRow (p : Platform J) (file : RecoveryWal) (final : ℕ) (x : Item J)
    (xs rest : List (Item J)) (row : Row J) : Prop :=
  x.line ≠ none ∧ row.lines = validLines (x :: xs) ∧
    ∃ first ∈ (validLines (x :: xs)).head?, ∃ encoded,
      encodeGeneration p (identityFromLine first) (validLines (x :: xs)) file.withBloom
        (some (recoveryIdentity file.name x.offset (stopAt rest final))) =
        .ok (row.storageKey, encoded)

variable {file : RecoveryWal} {final : ℕ} {x x' : Item J} {xs xs' rest rest' : List (Item J)}
  {row row' : Row J}

theorem BatchRow.unique (h : BatchRow p file final x xs rest row)
    (h' : BatchRow p file final x xs rest row') : row = row' := by
  obtain ⟨-, hlines, first, hfirst, encoded, hencode⟩ := h
  obtain ⟨-, hlines', first', hfirst', encoded', hencode'⟩ := h'
  obtain rfl := mem_unique hfirst hfirst'
  rw [hencode] at hencode'
  obtain ⟨hkey, -⟩ := Prod.mk.inj (Except.ok.inj hencode')
  cases row
  cases row'
  simp only at hlines hlines' hkey
  rw [hlines, hlines', hkey]

theorem key_eq {identity : ChunkIdentity} {lines : List (LogLine J)} {withBloom : Bool}
    {name : Option Text} {key : Text} {encoded : EncodedChunk}
    (h : encodeGeneration p identity lines withBloom name = .ok (key, encoded)) :
    key = chunkKey p.calendar encoded.footer.labels (contentHash p.sha name encoded.bytes) := by
  obtain ⟨chunk, _, hreturn⟩ := bind_eq_ok.mp h
  obtain ⟨rfl, rfl⟩ := Prod.mk.inj (Except.ok.inj hreturn)
  rfl

theorem BatchRow.range_eq (h : BatchRow p file final x xs rest row)
    (h' : BatchRow p file final x' xs' rest' row') (hkey : row.storageKey = row'.storageKey) :
    x.offset = x'.offset ∧ stopAt rest final = stopAt rest' final := by
  obtain ⟨-, -, _, -, encoded, hencode⟩ := h
  obtain ⟨-, -, _, -, encoded', hencode'⟩ := h'
  rw [key_eq hencode, key_eq hencode'] at hkey
  have hhash := suffix_of_chunkKey (contentHash_no_dash _ _ _) (contentHash_no_dash _ _ _) hkey
  obtain ⟨hstart, hstop, -⟩ := contentHash_recovered hhash
  exact ⟨hstart, hstop⟩

inductive RowsOf (p : Platform J) (file : RecoveryWal) (final : ℕ) :
    List (List (Item J)) → List (Row J) → Prop
  | nil (segs : List (List (Item J))) : RowsOf p file final segs []
  | cons (x : Item J) (xs : List (Item J)) (back : List (List (Item J))) (row : Row J)
      (rows : List (Row J)) (head : BatchRow p file final x xs back.flatten row)
      (tail : RowsOf p file final back rows) :
      RowsOf p file final ((x :: xs) :: back) (row :: rows)

variable {segs : List (List (Item J))} {rows : List (Row J)}

theorem validLines_ne_nil (h : x.line ≠ none) : validLines (x :: xs) ≠ [] := by
  obtain ⟨l, hl⟩ := ne_none_iff_exists'.mp h
  rw [validLines, filterMap_cons, hl]
  exact cons_ne_nil _ _

section

variable (h : RowsOf p file final segs rows)
include h

theorem RowsOf.batch_of_mem (hrow : row ∈ rows) :
    ∃ front x xs back, segs = front ++ (x :: xs) :: back ∧ front.length < rows.length ∧
      BatchRow p file final x xs back.flatten row := by
  induction h with
  | nil => cases hrow
  | cons x xs back row' rows head tail ih =>
    rcases mem_cons.mp hrow with rfl | hrow
    · exact ⟨[], x, xs, back, rfl, Nat.succ_pos _, head⟩
    · obtain ⟨front, y, ys, rest, rfl, hlen, hbatch⟩ := ih hrow
      exact ⟨(x :: xs) :: front, y, ys, rest, rfl, Nat.succ_lt_succ hlen, hbatch⟩

theorem lines_ne_nil_of_mem (hrow : row ∈ rows) : row.lines ≠ [] := by
  obtain ⟨_, y, ys, _, _, _, hline, hlines, _⟩ := h.batch_of_mem hrow
  exact hlines ▸ validLines_ne_nil hline

theorem RowsOf.nodup (hordered : Ordered segs.flatten final) : (rows.map Row.storageKey).Nodup := by
  induction h with
  | nil => exact nodup_nil
  | cons x xs back row rows head tail ih =>
    have hback : back.flatten <:+ ((x :: xs) :: back).flatten := suffix_append _ _
    rw [map_cons, nodup_cons]
    refine ⟨?_, ih (hordered.tail hback)⟩
    intro hmem
    obtain ⟨row', hrow', hkey⟩ := mem_map.mp hmem
    obtain ⟨front, y, ys, rest, rfl, -, hbatch⟩ := tail.batch_of_mem hrow'
    have hoffset := (head.range_eq hbatch hkey.symm).1
    have hoffsets := hordered.offsets
    rw [flatten_cons, cons_append, map_cons, nodup_cons] at hoffsets
    apply hoffsets.1
    rw [hoffset]
    exact mem_map_of_mem (by simp)

variable {back front : List (List (Item J))}

theorem RowsOf.row_of_batch
    (hsegs : segs = front ++ (x :: xs) :: back) (hlen : front.length < rows.length) :
    ∃ row ∈ rows, BatchRow p file final x xs back.flatten row := by
  induction h generalizing front with
  | nil => cases hlen
  | cons y ys rest row rows head tail ih =>
    cases front with
    | nil =>
      obtain ⟨hbatch, rfl⟩ := cons.inj hsegs
      obtain ⟨rfl, rfl⟩ := cons.inj hbatch
      exact ⟨row, mem_cons_self, head⟩
    | cons f front =>
      obtain ⟨-, htail⟩ := cons.inj hsegs
      obtain ⟨row', hrow', hbatch⟩ := ih htail (Nat.lt_of_succ_lt_succ hlen)
      exact ⟨row', mem_cons_of_mem _ hrow', hbatch⟩

end

def Sealed (p : Platform J) (stream : RecoveredStream J) (row : Row J) : Prop :=
  ∃ first ∈ stream.lines.head?, rowOf p stream first = .ok row

variable {back front : List (List (Item J))} {ss : List (RecoveredStream J)} {second first : ℕ}

theorem batchRow_of_sealed {stream : RecoveredStream J} (hline : x.line ≠ none)
    (h : Holds file.name file.withBloom final x xs back stream) (hrow : Sealed p stream row) :
    BatchRow p file final x xs back.flatten row := by
  obtain ⟨first, hfirst, hrow⟩ := hrow
  obtain ⟨⟨key, encoded⟩, hencode, hreturn⟩ := bind_eq_ok.mp hrow
  obtain rfl := Except.ok.inj hreturn
  rw [h.withBloom, h.identity, h.lines] at hencode
  rw [h.lines] at hfirst
  exact ⟨hline, h.lines, first, hfirst, encoded, hencode⟩

section

variable (h : Yields file.name file.withBloom final ss segs)
include h

theorem rowsOf_take (k : ℕ)
    (hrows : List.Forall₂ (Sealed p) (ss.take k) rows) : RowsOf p file final segs rows := by
  induction h generalizing k rows with
  | nil | damaged item line =>
    rw [take_nil] at hrows
    cases hrows
    exact .nil _
  | cons stream streams item items back line holds rest ih =>
    cases k with
    | zero =>
      cases hrows
      exact .nil _
    | succ k =>
      cases hrows with
      | cons hrow hrows =>
        exact .cons item items back _ _ (batchRow_of_sealed line holds hrow) (ih k hrows)

theorem flatMap_lines (hrows : List.Forall₂ (Sealed p) ss rows) :
    rows.flatMap Row.lines = validLines segs.flatten := by
  induction h generalizing rows with
  | nil =>
    cases hrows
    rfl
  | damaged item line =>
    cases hrows
    simp [validLines, line]
  | cons stream streams item items back line holds rest ih =>
    cases hrows with
    | cons hrow hrows =>
      have hlines := (batchRow_of_sealed line holds hrow).2.1
      rw [flatMap_cons, ih hrows, hlines, validLines, validLines, validLines,
        flatten_cons, filterMap_append]

theorem lines_ne_nil : ∀ s ∈ ss, s.lines ≠ [] := by
  induction h with
  | nil | damaged => exact nofun
  | cons stream streams item items back line holds rest ih =>
    exact forall_mem_cons.mpr ⟨holds.lines ▸ validLines_ne_nil line, ih⟩

theorem lone_damaged (hsegs : segs = front ++ batch :: back)
    (hlen : ss.length ≤ front.length) : ∃ item, batch = [item] ∧ item.line = none ∧ back = [] := by
  induction h generalizing front with
  | nil => simp at hsegs
  | damaged item line =>
    cases front with
    | nil =>
      obtain ⟨rfl, rfl⟩ := cons.inj hsegs
      exact ⟨item, rfl, line, rfl⟩
    | cons f front => simp at hsegs
  | cons stream streams item items back' line holds rest ih =>
    cases front with
    | nil => cases hlen
    | cons f front => exact ih (cons.inj hsegs).2 (Nat.le_of_succ_le_succ hlen)

theorem length_lt_of_line (hsegs : segs = front ++ (x :: xs) :: back) (hline : x.line ≠ none) :
    front.length < ss.length := by
  by_contra hlen
  obtain ⟨item, hbatch, hnone, -⟩ := lone_damaged h hsegs (Nat.le_of_not_lt hlen)
  obtain ⟨rfl, -⟩ := cons.inj hbatch
  exact hline hnone

end

section Passes

variable {segs' : List (List (Item J))} {rows' : List (Row J)}

theorem flatten_split {all : List (List (Item J))} (h : all = front ++ (x :: xs) :: back) :
    all.flatten = front.flatten ++ (x :: xs ++ back.flatten) := by
  rw [h, flatten_append, flatten_cons]

variable (hordered : Ordered segs.flatten final) (hsame : segs'.flatten = segs.flatten)
include hordered hsame

theorem batch_eq_of_key {front' back' : List (List (Item J))}
    (hsplit : segs = front ++ (x :: xs) :: back) (hsplit' : segs' = front' ++ (x' :: xs') :: back')
    (h : BatchRow p file final x xs back.flatten row)
    (h' : BatchRow p file final x' xs' back'.flatten row')
    (hkey : row.storageKey = row'.storageKey) :
    x :: xs = x' :: xs' ∧ back.flatten = back'.flatten := by
  obtain ⟨hstart, hstop⟩ := h.range_eq h' hkey
  exact hordered.cut_unique (flatten_split hsplit) (hsame.symm.trans (flatten_split hsplit'))
    hstart hstop

variable (h : RowsOf p file final segs rows) (h' : RowsOf p file final segs' rows')
include h h'

theorem row_eq_of_key (hrow : row ∈ rows) (hrow' : row' ∈ rows')
    (hkey : row.storageKey = row'.storageKey) : row = row' := by
  obtain ⟨front, y, ys, back, hsplit, -, hbatch⟩ := h.batch_of_mem hrow
  obtain ⟨front', z, zs, back', hsplit', -, hbatch'⟩ := h'.batch_of_mem hrow'
  obtain ⟨heq, hrest⟩ := batch_eq_of_key hordered hsame hsplit hsplit' hbatch hbatch' hkey
  obtain ⟨rfl, rfl⟩ := cons.inj heq
  rw [← hrest] at hbatch'
  exact hbatch.unique hbatch'

theorem rows_subset_iff (hne : ∀ b ∈ segs, b ≠ [])
    (hfull : ∀ {front x xs back}, segs' = front ++ (x :: xs) :: back → x.line ≠ none →
      front.length < rows'.length) :
    (∀ row ∈ rows, row ∈ rows') ↔ ∀ b ∈ segs.take rows.length, b ∈ segs' := by
  constructor
  · intro hsub b hb
    obtain ⟨front, back, hsplit, hlen⟩ := mem_take_iff.mp hb
    cases b with
    | nil => exact absurd rfl (hne [] (mem_of_mem_take hb))
    | cons y ys =>
      obtain ⟨row, hrow, hbatch⟩ := h.row_of_batch hsplit hlen
      obtain ⟨front', z, zs, back', hsplit', -, hbatch'⟩ := h'.batch_of_mem (hsub row hrow)
      have heq := (batch_eq_of_key hordered hsame hsplit hsplit' hbatch hbatch' rfl).1
      rw [heq, hsplit']
      exact mem_append_right _ mem_cons_self
  · intro hsub row hrow
    obtain ⟨front, y, ys, back, hsplit, hlen, hbatch⟩ := h.batch_of_mem hrow
    have hmem := hsub _ (mem_take_iff.mpr ⟨front, back, hsplit, hlen⟩)
    obtain ⟨front', back', hsplit'⟩ := append_of_mem hmem
    obtain ⟨row', hrow', hbatch'⟩ := h'.row_of_batch hsplit' (hfull hsplit' hbatch.1)
    have hrest := (hordered.split_unique (flatten_split hsplit)
      (hsame.symm.trans (flatten_split hsplit')) rfl).2
    rw [← append_cancel_left hrest] at hbatch'
    rw [hbatch.unique hbatch']
    exact hrow'

end Passes

theorem batchesOf_yields {root : String} (h : batchesOf p root file batchBytes = .ok ss) :
    Yields file.name file.withBloom (scanFile p.records file.bytes 0).2 ss
      (batches batchBytes (items p file)) := by
  have hlive : Live file.open := ⟨rfl, fun header hheader ↦ nomatch hheader⟩
  obtain ⟨ss', hss, hyields⟩ := streams_yields p.records root (max batchBytes 1) hlive
    (file.bytes.length + 1) (Nat.lt_succ_self _)
  obtain rfl : ss' = ss := Except.ok.inj (hss.symm.trans h)
  exact hyields

theorem flatten_batches (batchBytes : ℕ) (items : List (Item J)) :
    (batches batchBytes items).flatten = items := Scale.flatten_segments _ _ _

theorem ordered_batches (p : Platform J) (file : RecoveryWal) (batchBytes : ℕ) :
    Ordered (batches batchBytes (items p file)).flatten (scanFile p.records file.bytes 0).2 := by
  rw [flatten_batches]
  exact (scanFile_ordered p.records file.bytes 0).1

theorem committed_iff {k : ℕ}
    (h : Yields file.name file.withBloom final ss (batches first (items p file))) :
    (∀ front batch back, batches first (items p file) = front ++ batch :: back →
        front.length < min k ss.length → Repeatable second batch back.flatten) ↔
      ∀ front batch back, batches first (items p file) = front ++ batch :: back →
        front.length < k → Repeatable second batch back.flatten := by
  constructor
  · intro hall front batch back hsplit hk
    by_cases hlen : front.length < ss.length
    · exact hall front batch back hsplit (lt_min hk hlen)
    · obtain ⟨item, rfl, -, rfl⟩ := lone_damaged h hsplit (Nat.le_of_not_lt hlen)
      exact ⟨.inl rfl, fun item hitem ↦ nomatch hitem⟩
  · intro hall front batch back hsplit hk
    exact hall front batch back hsplit (lt_of_lt_of_le hk (min_le_left _ _))

theorem batches_subset_iff {k : ℕ} {items : List (Item J)} (hnodup : items.Nodup) :
    (∀ b ∈ (batches first items).take k, b ∈ batches second items) ↔
      ∀ front batch back, batches first items = front ++ batch :: back → front.length < k →
        Repeatable second batch back.flatten := by
  rw [batches, batches, Scale.subset_iff_prefix hnodup, Scale.take_prefix_iff]
  have hne : ∀ {front batch back},
      payloadScale.segments (exceeds (max first 1)) items = front ++ batch :: back → batch ≠ [] := by
    intro front batch back hsplit
    have hmem : batch ∈ payloadScale.segments (exceeds (max first 1)) items := by
      rw [hsplit]
      exact mem_append_right _ mem_cons_self
    exact Scale.ne_nil_of_mem_segments _ _ hmem
  constructor
  · intro hall front batch back hsplit hk
    exact (repeatable_iff (hne hsplit)).mpr (hall front batch back hsplit hk)
  · intro hall front batch back hsplit hk
    exact (repeatable_iff (hne hsplit)).mp (hall front batch back hsplit hk)

theorem repeatable_self (p : Platform J) (file : RecoveryWal) (batchBytes k : ℕ)
    (front : List (List (Item J))) (batch : List (Item J)) (back : List (List (Item J)))
    (hsplit : batches batchBytes (items p file) = front ++ batch :: back)
    (hk : front.length < k) : Repeatable batchBytes batch back.flatten := by
  have hnodup := (ordered_batches p file batchBytes).offsets.of_map
  rw [flatten_batches] at hnodup
  exact (batches_subset_iff hnodup).mp (fun _ ↦ mem_of_mem_take) front batch back hsplit hk

/-- After a retry the committed chunks hold every record once exactly if the second pass repeats the
batches that the first one has committed. -/
theorem retry_exactly_once_iff (p : Platform J) (root : String) (file : RecoveryWal) (first : ℕ)
    (stop : Option ℕ) (second : ℕ) (rows : List (Row J))
    (h : retry p root file first stop second = .ok rows) :
    (rows.flatMap Row.lines).Perm (validLines (items p file)) ↔
      ∀ k ∈ stop, ∀ front batch back, batches first (items p file) = front ++ batch :: back →
        front.length < k → Repeatable second batch back.flatten := by
  obtain ⟨ss, hss, hpass⟩ := bind_eq_ok.mp h
  have hyields := batchesOf_yields hss
  have hordered := ordered_batches p file first
  cases stop with
  | none =>
    obtain ⟨rs, hrs, rfl⟩ := foldlM_recoverStream (lines_ne_nil hyields) hpass
    have hrows := rowsOf_take hyields ss.length (by rwa [take_length])
    rw [Absorb.insertAll_nil (hrows.nodup hordered), flatMap_lines hyields hrs, flatten_batches]
    simp
  | some k =>
    obtain ⟨mid, hmid, hrest⟩ := bind_eq_ok.mp hpass
    obtain ⟨ss', hss', hpass'⟩ := bind_eq_ok.mp hrest
    have hyields' := batchesOf_yields hss'
    have hordered' := ordered_batches p file second
    have hsame : (batches second (items p file)).flatten =
        (batches first (items p file)).flatten := by
      rw [flatten_batches, flatten_batches]
    have hne : ∀ s ∈ ss.take k, s.lines ≠ [] :=
      fun s hs ↦ lines_ne_nil hyields s (mem_of_mem_take hs)
    obtain ⟨rs, hrs, rfl⟩ := foldlM_recoverStream hne hmid
    obtain ⟨rs', hrs', rfl⟩ := foldlM_recoverStream (lines_ne_nil hyields') hpass'
    have hrows := rowsOf_take hyields k hrs
    have hrows' := rowsOf_take hyields' ss'.length (by rwa [take_length])
    have hlen : rs.length = min k ss.length := by
      rw [← hrs.length_eq, length_take]
    have hfull : ∀ {front x xs back},
        batches second (items p file) = front ++ (x :: xs) :: back → x.line ≠ none →
        front.length < rs'.length := by
      intro front x xs back hsplit hline
      rw [← hrs'.length_eq]
      exact length_lt_of_line hyields' hsplit hline
    have hcontent := flatMap_lines hyields' hrs'
    have hnodup := hordered.offsets.of_map
    rw [flatten_batches] at hcontent hnodup
    rw [Absorb.insertAll_nil (hrows.nodup hordered), ← hcontent,
      Absorb.flatMap_insertAll_perm_iff Row.lines (hrows.nodup hordered)
        (hrows'.nodup hordered')
        (fun _ hr _ hr' ↦ row_eq_of_key hordered hsame hrows hrows' hr hr')
        (fun _ ↦ lines_ne_nil_of_mem hrows),
      rows_subset_iff hordered hsame hrows hrows' (fun b hb ↦ Scale.ne_nil_of_mem_segments _ _ hb)
        hfull, hlen, batches_subset_iff hnodup, committed_iff hyields]
    simp

def tick (ts : ℤ) : LogLine ℕ :=
  ⟨ts, .stdout, .info, [], none, "", "", "", 1, none, none, none, none⟩

def twoRecords : RecoveryWal where
  name := ['w']
  bytes := ((append plainRecords (tick 1)).toOption.getD []) ++
    ((append plainRecords (tick 2)).toOption.getD [])
  withBloom := false

theorem retry_exactly_once_same_size :
    ∃ rows, retry plainPlatform "wal" twoRecords 1 (some 1) 1 = .ok rows ∧
      (rows.flatMap Row.lines).Perm (validLines (items plainPlatform twoRecords)) := by
  have hrun : (retry plainPlatform "wal" twoRecords 1 (some 1) 1).toOption.isSome := by
    decide +kernel
  obtain ⟨rows, hrows⟩ := isSome_iff_exists.mp hrun
  have hrows := ok_of_toOption hrows
  refine ⟨rows, hrows, ?_⟩
  rw [retry_exactly_once_iff plainPlatform "wal" twoRecords 1 (some 1) 1 rows hrows]
  exact fun k _ front batch back ↦ repeatable_self plainPlatform twoRecords 1 k front batch back

theorem larger_batches_repeat_a_line :
    ∃ rows, retry plainPlatform "wal" twoRecords 1 (some 1) 1000 = .ok rows ∧
      ¬ (rows.flatMap Row.lines).Perm (validLines (items plainPlatform twoRecords)) := by
  have hrun : (retry plainPlatform "wal" twoRecords 1 (some 1) 1000).toOption.map
      (fun rows ↦ (rows.flatMap Row.lines).length) = some 3 := by
    decide +kernel
  have hvalid : (validLines (items plainPlatform twoRecords)).length = 2 := by
    decide +kernel
  obtain ⟨rows, hrows, hlen⟩ := map_eq_some_iff.mp hrun
  refine ⟨rows, ok_of_toOption hrows, ?_⟩
  intro hperm
  have heq := hperm.length_eq
  omega

end Temps.LogAggregator.Services.WalRetry
