import Temps.LogAggregator.Services.WriterRecovery

namespace Temps.LogAggregator.Services.ChunkWriter

open Lib Lib.Faults LogAggregator.Types Chunk Chunk.Wal Seal List
open Store.ManifestRepo (column)

variable {J : Type} {cfg : Config J} {batchBytes : ℕ} {ident : String → ChunkIdentity}
  {rules : Rules J} {d d' : Disk J} {s s' : State J} {e : Entry J} {n : ℕ} {project before : ℤ}
  {r : ChunkRow J} {g : Generation J}

def purgeRules (batchBytes : ℕ) (ident : String → ChunkIdentity) : Rules J where
  batchBytes := batchBytes
  ident := ident
  appends _ _ := True
  purges := True

/-- A chunk or generation of the project that holds the line and only lines before the cut-off. -/
structure Expired (project before : ℤ) (n : ℕ) (entries : List (Entry J)) : Prop where
  mem : ∃ e ∈ entries, e.serial = n
  old : ∀ e ∈ entries, e.line.projectId = project ∧ e.line.ts < before

def Doomed (project before : ℤ) (n : ℕ) (d : Disk J) : Prop :=
  (∃ r ∈ d.rows, Expired project before n r.entries) ∨
    (∃ g ∈ d.files ++ d.deferred, Expired project before n g.entries) ∨
    ∃ file, Expired project before n (d.wal.filter (inFile file))

structure Gone (n : ℕ) (d : Disk J) : Prop where
  accepted : n < d.accepted.length
  wal : ∀ e ∈ d.wal, e.serial ≠ n
  files : ∀ g ∈ d.files, ∀ e ∈ g.entries, e.serial ≠ n
  rows : ∀ r ∈ d.rows, (∃ e ∈ r.entries, e.serial = n) → r.live = false

theorem RowFrom.subset (h : RowFrom cfg batchBytes g r) : ∀ e ∈ r.entries, e ∈ g.entries := by
  obtain ⟨p, hp, -, hentries⟩ := h.part
  intro e he
  rw [← flatMap_parts cfg batchBytes g]
  exact mem_flatMap.mpr ⟨p, mem_of_getElem? hp, hentries ▸ he⟩

theorem Gone.move (h : Gone n d) (hmove : Move cfg rules d d') : Gone n d' := by
  cases hmove with
  | append owns fits allowed =>
    refine ⟨?_, forall_mem_append.mpr ⟨h.wal, forall_mem_singleton.mpr h.accepted.ne'⟩, h.files,
      h.rows⟩
    rw [Disk.append, length_append]
    exact Nat.lt_add_right _ h.accepted
  | sync containers => exact { h with }
  | rename kind withBloom nonempty =>
    have hwal {p : Entry J → Bool} : ∀ e ∈ d.wal.filter p, e.serial ≠ n :=
      fun e he ↦ h.wal e (mem_of_mem_filter he)
    exact ⟨h.accepted, hwal, forall_mem_append.mpr ⟨h.files, forall_mem_singleton.mpr hwal⟩, h.rows⟩
  | insertRow file row live =>
    refine ⟨h.accepted, h.wal, h.files, Absorb.forall_mem_insert h.rows ?_⟩
    rintro ⟨e, he, hserial⟩
    exact absurd hserial (h.files _ file e (row.subset e he))
  | removeFile file committed | deferFile file large =>
    exact ⟨h.accepted, h.wal, fun g hg ↦ h.files g (mem_of_mem_filter hg), h.rows⟩
  | cutTails cut =>
    exact ⟨h.accepted, fun e he ↦ h.wal e (mem_of_mem_filter he), h.files, h.rows⟩
  | expire project before allowed =>
    refine ⟨h.accepted, h.wal, h.files, fun r hr hn ↦ ?_⟩
    obtain ⟨r, hold, rfl⟩ := mem_map.mp hr
    rw [expire] at hn ⊢
    split
    · rfl
    · rename_i hkept
      rw [if_neg hkept] at hn
      exact h.rows r hold hn

theorem Gone.moves (h : Gone n d) (hmoves : Moves cfg rules d d') : Gone n d' := by
  induction hmoves with
  | refl => exact h
  | tail _ hmove ih => exact ih.move hmove

theorem Coherent.not_visible (h : Coherent cfg rules s) (hn : Gone n s.toDisk) :
    ∀ e ∈ visible s, e.serial ≠ n := by
  intro e he
  simp only [visible, mem_append, mem_flatMap, mem_filter] at he
  rcases he with (hhead | ⟨x, hx, hentry⟩) | ⟨r, ⟨hr, hlive⟩, hentry⟩
  · cases hready : s.ready with
    | true =>
      rw [h.running hready] at hhead
      exact hn.wal e hhead
    | false =>
      rw [(h.stopped hready).1] at hhead
      cases hhead
  · exact hn.files _ (h.sealings x hx).file e hentry
  · intro hserial
    rw [hn.rows r hr ⟨e, hentry, hserial⟩] at hlive
    cases hlive

structure Later (d d' : Disk J) : Prop where
  accepted : d.accepted <+: d'.accepted
  born : d.born ⊆ d'.born
  rows : ∀ r ∈ d.rows, ∃ live, { r with live := live } ∈ d'.rows

theorem later_move (hmove : Move cfg rules d d') : Later d d' := by
  have hsame : ∀ r ∈ d.rows, ∃ live, ({ r with live := live } : ChunkRow J) ∈ d.rows :=
    fun r hr ↦ ⟨r.live, hr⟩
  cases hmove with
  | append owns fits allowed => exact ⟨prefix_append _ _, List.Subset.refl _, hsame⟩
  | sync containers | removeFile file committed | deferFile file large =>
    exact ⟨prefix_rfl, List.Subset.refl _, hsame⟩
  | rename kind withBloom nonempty => exact ⟨prefix_rfl, subset_append_left _ _, hsame⟩
  | insertRow file row live =>
    exact ⟨prefix_rfl, List.Subset.refl _, fun r hr ↦ ⟨r.live, Absorb.subset_insert _ _ hr⟩⟩
  | cutTails cut => exact ⟨prefix_rfl, List.Subset.refl _, hsame⟩
  | expire project before allowed =>
    refine ⟨prefix_rfl, List.Subset.refl _, fun r hr ↦ ?_⟩
    obtain ⟨live, hlive⟩ := expire_live project before r
    exact ⟨live, mem_map.mpr ⟨r, hr, hlive⟩⟩

theorem later_moves (hmoves : Moves cfg rules d d') : Later d d' := by
  induction hmoves with
  | refl => exact ⟨prefix_rfl, List.Subset.refl _, fun r hr ↦ ⟨r.live, hr⟩⟩
  | tail _ hmove ih =>
    have hlast := later_move hmove
    refine ⟨ih.accepted.trans hlast.accepted, fun g hg ↦ hlast.born (ih.born hg), fun r hr ↦ ?_⟩
    obtain ⟨live, hlive⟩ := ih.rows r hr
    obtain ⟨live', hlive'⟩ := hlast.rows _ hlive
    exact ⟨live', hlive'⟩

theorem eq_of_nodup_flatMap {α β : Type} {l : List α} {f : α → List β} (h : (l.flatMap f).Nodup)
    {a a' : α} {b : β} (ha : a ∈ l) (ha' : a' ∈ l) (hb : b ∈ f a) (hb' : b ∈ f a') : a = a' := by
  by_contra hne
  have : Std.Symm (Function.onFun List.Disjoint f) := ⟨fun _ _ hd ↦ hd.symm⟩
  exact (nodup_flatMap.mp h).2.forall ha ha' hne hb hb'

namespace Stored

variable (h : Stored cfg batchBytes ident d)
include h

theorem origins_nodup : d.origins.Nodup :=
  h.origins.nodup_iff.mpr h.serials_nodup.of_map

theorem eq_of_serial {e' : Entry J} (he : e ∈ d.accepted)
    (he' : e' ∈ d.accepted) (heq : e.serial = e'.serial) : e = e' :=
  inj_on_of_nodup_map h.serials_nodup he he' heq

theorem accepted_of_born (hg : g ∈ d.born) (he : e ∈ g.entries) : e ∈ d.accepted :=
  h.origins.mem_iff.mp (mem_append_right _ (mem_flatMap.mpr ⟨g, hg, he⟩))

theorem not_born_of_wal (he : e ∈ d.wal) (hg : g ∈ d.born) : e ∉ g.entries := by
  intro hentry
  have hdisjoint := (nodup_append'.mp h.origins_nodup).2.2
  exact hdisjoint (mem_append_right _ he) (mem_flatMap.mpr ⟨g, hg, hentry⟩)

theorem generation_unique {g' : Generation J}
    (hg : g ∈ d.born) (hg' : g' ∈ d.born) (he : e ∈ g.entries) (he' : e ∈ g'.entries) : g = g' :=
  eq_of_nodup_flatMap (nodup_append'.mp h.origins_nodup).2.1 hg hg' he he'

theorem row_unique {r' : ChunkRow J} (hr : r ∈ d.rows)
    (hr' : r' ∈ d.rows) (he : e ∈ r.entries) (he' : e ∈ r'.entries) : r = r' := by
  obtain ⟨g, hg, hfrom⟩ := h.rows r hr
  obtain ⟨g', hg', hfrom'⟩ := h.rows r' hr'
  obtain rfl := h.generation_unique hg hg' (hfrom.subset e he) (hfrom'.subset e he')
  have hentries : g.entries.Nodup :=
    (nodup_flatMap.mp (nodup_append'.mp h.origins_nodup).2.1).1 g hg
  obtain ⟨l, hperm, hsub⟩ := (h.rowsFrom hg).subperm
  have hrows := hperm.nodup_iff.mp (hsub.nodup hentries)
  have hmem : ∀ r ∈ d.rows, RowFrom cfg batchBytes g r → r ∈ d.rowsOf g.name := fun r hr hfrom ↦
    mem_filter.mpr ⟨hr, decide_eq_true hfrom.file⟩
  exact eq_of_nodup_flatMap hrows (hmem r hr hfrom) (hmem r' hr' hfrom') he he'

theorem projectId_of_row (hr : r ∈ d.rows)
    (he : e ∈ r.entries) : r.projectId = e.line.projectId := by
  obtain ⟨g, hg, hfrom⟩ := h.rows r hr
  have hsubset := hfrom.subset
  obtain ⟨c, hc⟩ := h.owned g hg
  obtain ⟨p, identity, hp, hidentity, -, hrow⟩ := hfrom
  have hproject : r.projectId = identity.projectId := congrArg ChunkRow.projectId hrow
  have hentries : r.entries = p.entries := congrArg ChunkRow.entries hrow
  rw [hentries] at hsubset
  obtain ⟨first, hfirst, rfl⟩ := Option.map_eq_some_iff.mp hidentity
  have hhead := (hc first (hsubset first (mem_of_mem_head? hfirst))).2
  have hline := (hc e (hsubset e (hentries ▸ he))).2
  rw [hproject, hhead, ← hline]
  rfl

end Stored

theorem endedAt_lt (h : Stored cfg batchBytes ident d) (hr : r ∈ d.rows)
    (hold : ∀ e ∈ r.entries, column e.line.ts < column before) : r.endedAt < column before := by
  obtain ⟨g, hg, p, identity, hp, hidentity, -, hrow⟩ := h.rows r hr
  have hended : r.endedAt = column ((p.entries.map fun e ↦ e.line.ts).foldl max
      (p.entries.head?.elim 0 fun e ↦ e.line.ts)) := congrArg ChunkRow.endedAt hrow
  have hentries : r.entries = p.entries := congrArg ChunkRow.entries hrow
  rw [hentries] at hold
  obtain ⟨first, hfirst, -⟩ := Option.map_eq_some_iff.mp hidentity
  rw [hended, hfirst]
  refine foldlRecOn (motive := (column · < column before)) _ max
    (hold first (mem_of_mem_head? hfirst)) fun m hm t ht ↦ ?_
  obtain ⟨e, he, rfl⟩ := mem_map.mp ht
  rcases max_choice m e.line.ts with heq | heq <;> rw [heq]
  exacts [hm, hold e he]

theorem Doomed.entry (h : Stored cfg batchBytes ident d) (hn : Doomed project before n d) :
    ∃ e ∈ d.accepted, e.serial = n ∧ e.line.projectId = project ∧
      ((∃ r ∈ d.rows, e ∈ r.entries ∧ Expired project before n r.entries) ∨
        (∃ g ∈ d.born, e ∈ g.entries ∧ Expired project before n g.entries) ∨
        e ∈ d.wal ∧ Expired project before n (d.wal.filter (inContainer e.container))) := by
  rcases hn with ⟨r, hr, hold⟩ | ⟨g, hg, hold⟩ | ⟨file, hold⟩
  all_goals
    obtain ⟨e, he, hserial⟩ := hold.mem
    have hproject := (hold.old e he).1
  · obtain ⟨g, hg, hfrom⟩ := h.rows r hr
    exact ⟨e, h.accepted_of_born hg (hfrom.subset e he), hserial, hproject, .inl ⟨r, hr, he, hold⟩⟩
  · have hborn := (mem_append.mp hg).elim (h.filesBorn g) (h.deferredBorn g)
    exact ⟨e, h.accepted_of_born hborn he, hserial, hproject, .inr (.inl ⟨g, hborn, he, hold⟩)⟩
  · obtain ⟨hwal, hfile⟩ := mem_filter.mp he
    obtain rfl : e.file = file := of_decide_eq_true hfile
    rw [filter_congr fun _ ↦ h.inFile_eq hwal] at hold
    exact ⟨e, h.accepted_of_wal hwal, hserial, hproject, .inr (.inr ⟨hwal, hold⟩)⟩

section

variable (h : Stored.By cfg rules s.toDisk) (hpurge : AfterPurge cfg rules project before s s')
include h hpurge

theorem Doomed.row_old (hn : Doomed project before n s.toDisk) (hr : r ∈ s'.rows)
    (he : e ∈ r.entries) (hserial : e.serial = n) : ∀ e' ∈ r.entries,
      e' ∈ s.accepted ∧ e'.line.projectId = project ∧ e'.line.ts < before := by
  have h' := hpurge.coherent.stored
  have hlater := later_moves hpurge.moves
  obtain ⟨g, hg, hfrom⟩ := h'.rows r hr
  have hentry := hfrom.subset e he
  have haccepted := h'.accepted_of_born hg hentry
  obtain ⟨e₀, hold, hserial₀, -, hwhere⟩ := hn.entry h
  obtain rfl := h'.eq_of_serial (hlater.accepted.subset hold) haccepted (hserial₀.trans hserial.symm)
  rcases hwhere with ⟨r₀, hr₀, he₀, hexpired⟩ | ⟨g₀, hborn, he₀, hexpired⟩ | ⟨hwal, hexpired⟩
  · obtain ⟨live, hkept⟩ := hlater.rows r₀ hr₀
    rw [h'.row_unique hr hkept he he₀]
    obtain ⟨g₀, hg₀, hfrom₀⟩ := h.rows r₀ hr₀
    exact fun e' he' ↦
      ⟨h.accepted_of_born hg₀ (hfrom₀.subset e' he'), hexpired.old e' he'⟩
  · obtain rfl := h'.generation_unique hg (hlater.born hborn) hentry he₀
    exact fun e' he' ↦ ⟨h.accepted_of_born hborn (hfrom.subset e' he'),
      hexpired.old e' (hfrom.subset e' he')⟩
  · rcases hpurge.born g hg with hborn | ⟨-, c', hentries⟩
    · exact absurd hentry (h.not_born_of_wal hwal hborn)
    · intro e' he'
      have hmem := hfrom.subset e' he'
      rw [hentries] at hentry hmem
      have hc' : e₀.container = c' := of_decide_eq_true (mem_filter.mp hentry).2
      rw [← hc'] at hmem
      exact ⟨h.accepted_of_wal (mem_of_mem_filter hmem), hexpired.old e' hmem⟩

theorem Doomed.gone (hclean : ∀ g ∈ s.files, ∀ e ∈ g.entries, e.line.projectId ≠ project)
    (hmicro : ∀ e ∈ s.accepted, e.line.projectId = project → e.line.ts < before →
      column e.line.ts < column before)
    (hn : Doomed project before n s.toDisk) : Gone n s'.toDisk := by
  have h' := hpurge.coherent.stored
  obtain ⟨e, he, hserial, hproject, -⟩ := hn.entry h
  have haccepted := (later_moves hpurge.moves).accepted.subset he
  have hsame : ∀ e' ∈ s'.accepted, e'.serial = n → e' = e := fun e' he' hserial' ↦
    h'.eq_of_serial he' haccepted (hserial'.trans hserial.symm)
  refine ⟨hserial ▸ h'.serial_lt haccepted, fun e' he' hserial' ↦ ?_,
    fun g hg e' he' hserial' ↦ ?_, fun r hr hmem ↦ ?_⟩
  · obtain rfl := hsame e' (h'.accepted_of_wal he') hserial'
    exact hpurge.wal e' he' ((congrArg ChunkIdentity.projectId (h'.labelled e' he')).symm.trans hproject)
  · obtain rfl := hsame e' (h'.accepted_of_born (h'.filesBorn g hg) he') hserial'
    exact hclean g (hpurge.files g hg) e' he' hproject
  · obtain ⟨e', he', hserial'⟩ := hmem
    obtain ⟨g, hg, hfrom⟩ := h'.rows r hr
    obtain rfl := hsame e' (h'.accepted_of_born hg (hfrom.subset e' he')) hserial'
    refine hpurge.dead r hr ((h'.projectId_of_row hr he').trans hproject)
      (endedAt_lt h' hr fun e' he'' ↦ ?_)
    obtain ⟨hkept, hlabel, hold⟩ := hn.row_old h hpurge hr he' hserial' e' he''
    exact hmicro e' hkept hlabel hold

end

theorem afterPurge_of_purged (h : Coherent cfg rules s) (hallowed : rules.purges) {withBloom : Bool}
    {fates : List Fate} (hok : purged cfg s project before withBloom fates) (cut : String → ℕ) :
    AfterPurge cfg rules project before s (purge cfg s project before withBloom fates cut) := by
  obtain ⟨henabled, hreturned⟩ := Bool.and_eq_true_iff.mp hok
  have hready : s.ready := (Bool.and_eq_true_iff.mp henabled).1
  have hends := ends_manualPurge h hallowed project before withBloom fates hready
  rw [Ends] at hends
  rw [purge, if_pos henabled]
  dsimp only
  cases hr : (manualPurge cfg project before withBloom s fates).outcome with
  | returned a =>
    rw [hr] at hends
    exact hends
  | failed e | crashed =>
    rw [hr] at hreturned
    cases hreturned

/-- A purge that succeeds while the WAL directory holds no generation of the project is permanent,
if no earlier line of the project is in the microsecond of the cut-off. -/
theorem purge_is_permanent (cfg : Config J) (batchBytes : ℕ) (ident : String → ChunkIdentity)
    (run₁ run₂ : List (Action J)) (project before : ℤ) (withBloom : Bool) (fates : List Fate)
    (cut : String → ℕ) (n : ℕ)
    (hrun : (purgeRules batchBytes ident).AdmitsRun cfg State.start
      (run₁ ++ .purge project before withBloom fates cut :: run₂))
    (hclean : ∀ g ∈ (exec cfg State.start run₁).files, ∀ e ∈ g.entries, e.line.projectId ≠ project)
    (hmicro : ∀ e ∈ (exec cfg State.start run₁).accepted, e.line.projectId = project →
      e.line.ts < before → column e.line.ts < column before)
    (hok : purged cfg (exec cfg State.start run₁) project before withBloom fates = true)
    (hn : Doomed project before n (exec cfg State.start run₁).toDisk) :
    ∀ e ∈ visible (exec cfg State.start
      (run₁ ++ .purge project before withBloom fates cut :: run₂)), e.serial ≠ n := by
  obtain ⟨hrun₁, -, hrun₂⟩ := Machine.along_append.mp hrun
  have hfirst := (advance_exec coherent_start hrun₁).coherent
  have hpurge := afterPurge_of_purged hfirst trivial hok cut
  have hlast := advance_exec hpurge.coherent hrun₂
  have hgone := (hn.gone hfirst.stored hpurge hclean hmicro).moves hlast.moves
  rw [exec_append]
  exact hlast.coherent.not_visible hgone

def purgeNotes : Action ℕ := .purge 1 2000 false [] fun _ ↦ 0

def restart : List (Action ℕ) := [.crash fun _ ↦ 0, .recover 1000 false []]

def writeNote : List (Action ℕ) := [.recover 1000 false [], .write (note [])]

theorem purge_is_permanent_for_head :
    (visible (exec sized State.start (writeNote ++ purgeNotes :: restart))).all
      (fun e ↦ e.serial ≠ 0) = true := by
  refine all_eq_true.mpr fun e he ↦ decide_eq_true ?_
  revert e he
  refine purge_is_permanent sized 1000 noteIdent writeNote restart 1 2000 false [] (fun _ ↦ 0) 0
    ?_ ?_ ?_ ?_ (.inr (.inr ⟨walFileName "c1", ?_, ?_⟩))
  · exact ⟨rfl, ⟨⟨rfl, fun _ he ↦ absurd he not_mem_nil⟩, trivial⟩, trivial, trivial, rfl, trivial⟩
  · decide +kernel
  · decide +kernel
  · decide +kernel
  · exact ⟨⟨0, note []⟩, by decide +kernel, rfl⟩
  · decide +kernel

def shedNote : List (Action ℕ) := writeNote ++ [.beginSeal "c1" false, .sealObject "c1" false]

/-- A purge does not look at the generation of a shed seal, and the next start replays it. -/
theorem shed_generation_survives_purge :
    (purgeRules 1000 noteIdent).AdmitsRun sized State.start (shedNote ++ purgeNotes :: restart) ∧
      purged sized (exec sized State.start shedNote) 1 2000 false [] = true ∧
      Doomed 1 2000 0 (exec sized State.start shedNote).toDisk ∧
      ∃ e ∈ visible (exec sized State.start (shedNote ++ purgeNotes :: restart)), e.serial = 0 := by
  refine ⟨⟨rfl, ⟨⟨rfl, fun _ he ↦ absurd he not_mem_nil⟩, trivial⟩, trivial, trivial, trivial,
      trivial, rfl, trivial⟩, by decide +kernel,
    .inr (.inl ⟨⟨0, .sealed, false, [⟨0, note []⟩]⟩, by decide +kernel, ?_, ?_⟩), ?_⟩
  · exact ⟨⟨0, note []⟩, mem_singleton_self _, rfl⟩
  · decide +kernel
  · exact ⟨⟨0, note []⟩, by decide +kernel, rfl⟩

end Temps.LogAggregator.Services.ChunkWriter
