import Temps.LogAggregator.Services.WriterStored

namespace Temps.LogAggregator.Services.ChunkWriter

open Lib Lib.Faults LogAggregator.Types Chunk Chunk.Wal Seal List Function

variable {J : Type}

/-- What a run is assumed to keep to: the batch size of its recovery passes, the labels of its
containers, the lines it may append, and whether it purges. -/
structure Rules (J : Type) where
  batchBytes : ℕ
  ident : String → ChunkIdentity
  appends : Disk J → LogLine J → Prop
  purges : Prop

variable {cfg : Config J} {rules : Rules J} {d d' : Disk J} {x : Sealing J} {g : Generation J}

/-- The line has the labels of its container, and its container shares its file with no other. -/
@[mk_iff]
structure Rules.Owns (rules : Rules J) (d : Disk J) (line : LogLine J) : Prop where
  labels : identityFromLine line = rules.ident line.containerId
  file : ∀ e ∈ d.accepted, e.file = walFileName line.containerId → e.container = line.containerId

inductive Move (cfg : Config J) (rules : Rules J) : Disk J → Disk J → Prop
  | append {d : Disk J} {line : LogLine J}
      (owns : rules.Owns d line)
      (fits : cfg.payloadLen line ≤ maxRecordBytes) (allowed : rules.appends d line) :
      Move cfg rules d (d.append ⟨d.accepted.length, line⟩)
  | sync {d : Disk J} (containers : List String) : Move cfg rules d (d.sync containers)
  | rename {d : Disk J} {file : Text} (kind : Kind) (withBloom : Bool)
      (nonempty : d.wal.filter (inFile file) ≠ []) :
      Move cfg rules d (d.renameActive file kind withBloom)
  | insertRow {d : Disk J} {g : Generation J} {r : ChunkRow J} (file : g ∈ d.files)
      (row : RowFrom cfg rules.batchBytes g r) (live : r.live = true) :
      Move cfg rules d (d.insertRow r)
  | removeFile {d : Disk J} {g : Generation J} (file : g ∈ d.files)
      (committed : ∀ p ∈ parts cfg rules.batchBytes g, Committed cfg d p) :
      Move cfg rules d (d.removeFile g.name)
  | deferFile {d : Disk J} {g : Generation J} (file : g ∈ d.files)
      (large : wholeGenerationLimit < fileBytes cfg g.entries) :
      Move cfg rules d (d.deferFile g)
  | cutTails {d : Disk J} (cut : String → ℕ) : Move cfg rules d (d.cutTails cut)
  | expire {d : Disk J} (project before : ℤ) (allowed : rules.purges) :
      Move cfg rules d (d.mapRows (expire project before))

abbrev Moves (cfg : Config J) (rules : Rules J) : Disk J → Disk J → Prop :=
  Relation.ReflTransGen (Move cfg rules)

theorem expire_live (project before : ℤ) (r : ChunkRow J) :
    ∃ live, expire project before r = { r with live := live } := by
  rw [expire]
  split
  · exact ⟨false, rfl⟩
  · exact ⟨r.live, rfl⟩

abbrev Stored.By (cfg : Config J) (rules : Rules J) (d : Disk J) : Prop :=
  Stored cfg rules.batchBytes rules.ident d

theorem Stored.move (h : Stored.By cfg rules d) (hmove : Move cfg rules d d') :
    Stored.By cfg rules d' := by
  cases hmove with
  | append owns fits allowed => exact h.append owns.labels owns.file
  | sync containers =>
    exact { h with }
  | rename kind withBloom nonempty => exact h.rename kind withBloom nonempty
  | insertRow file row live => exact h.insertRow (h.filesBorn _ file) row
  | removeFile file committed => exact h.removeFile (h.filesBorn _ file) committed
  | deferFile file large => exact h.deferFile (h.filesBorn _ file)
  | cutTails cut => exact h.cutTails cut
  | expire project before allowed => exact h.mapRows (expire_live project before)

theorem Stored.identityOf_part (h : Stored.By cfg rules d) (hg : g ∈ d.born)
    {p : Part J} (hp : p ∈ parts cfg rules.batchBytes g) {c : String}
    (hc : ∀ e ∈ g.entries, e.container = c) : identityOf p.entries = some (rules.ident c) := by
  obtain ⟨c', hc'⟩ := h.owned g hg
  have hsub : ∀ e ∈ p.entries, e ∈ g.entries := by
    intro e he
    rw [← flatMap_parts cfg rules.batchBytes g]
    exact mem_flatMap.mpr ⟨p, hp, he⟩
  cases hentries : p.entries with
  | nil => exact absurd hentries (ne_nil_of_mem_parts (h.nonempty g hg) hp)
  | cons e rest =>
    have he := hsub e (hentries ▸ mem_cons_self)
    obtain ⟨hcontainer, hident⟩ := hc' e he
    rw [identityOf, List.head?_cons, Option.map_some, hident, ← hcontainer, hc e he]

theorem rowFrom_rowOf {batchBytes : ℕ} {p : Part J} {i : ℕ}
    {identity : ChunkIdentity} {key : Text} (hp : (parts cfg batchBytes g)[i]? = some p)
    (hidentity : identityOf p.entries = some identity) (hkey : partKey cfg p = some key) :
    RowFrom cfg batchBytes g (rowOf identity key p.entries g.name i) :=
  ⟨p, identity, hp, hidentity, hkey, rfl⟩

namespace Sealing

def generation (x : Sealing J) : Generation J := ⟨x.file, .sealed, x.withBloom, x.entries⟩

def part (x : Sealing J) : Part J := ⟨x.withBloom, x.entries, none⟩

end Sealing

def Stage.Reached (cfg : Config J) (d : Disk J) (p : Part J) : Stage → Prop
  | .rotated => True
  | .written key => partKey cfg p = some key
  | .inserted => Committed cfg d p

structure InFlight (cfg : Config J) (rules : Rules J) (d : Disk J) (x : Sealing J) : Prop where
  file : x.generation ∈ d.files
  identity : x.identity = rules.ident x.container
  owned : ∀ e ∈ x.entries, e.container = x.container
  stage : x.stage.Reached cfg d x.part

theorem InFlight.mono (h : InFlight cfg rules d x)
    (hfile : x.generation ∈ d'.files) (hkeys : KeysKept d d') : InFlight cfg rules d' x := by
  refine ⟨hfile, h.identity, h.owned, ?_⟩
  have hstage := h.stage
  cases hx : x.stage with
  | rotated => trivial
  | written key => rwa [hx] at hstage
  | inserted =>
    rw [hx] at hstage
    exact hstage.mono hkeys

structure Coherent (cfg : Config J) (rules : Rules J) (s : State J) : Prop where
  stored : Stored.By cfg rules s.toDisk
  running : s.ready = true → s.heads = s.wal
  stopped : s.ready = false → s.heads = [] ∧ s.sealings = []
  identities : ∀ c, ∀ identity ∈ s.identities c, identity = rules.ident c
  buffers : ∀ e ∈ s.heads, (s.identities e.container).isSome
  sealings : ∀ x ∈ s.sealings, InFlight cfg rules s.toDisk x
  containers : (s.sealings.map Sealing.container).Nodup

theorem coherent_start : Coherent cfg rules (State.start : State J) where
  stored := stored_start
  running h := nomatch h
  stopped _ := ⟨rfl, rfl⟩
  identities _ _ h := nomatch h
  buffers _ h := nomatch h
  sealings _ h := nomatch h
  containers := nodup_nil

variable {s s' : State J} {c : String} {line : LogLine J}

/-- The step keeps memory and disk together and changes the disk by moves only. -/
structure Advance (cfg : Config J) (rules : Rules J) (s s' : State J) : Prop where
  coherent : Coherent cfg rules s'
  moves : Moves cfg rules s.toDisk s'.toDisk

theorem Advance.refl (h : Coherent cfg rules s) : Advance cfg rules s s := ⟨h, .refl⟩

theorem Advance.trans {s'' : State J} (h : Advance cfg rules s s') (h' : Advance cfg rules s' s'') :
    Advance cfg rules s s'' :=
  ⟨h'.coherent, h.moves.trans h'.moves⟩

theorem coherent_running (hready : s.ready) (stored : Stored.By cfg rules s.toDisk)
    (heads : s.heads = s.wal) (identities : ∀ c, ∀ identity ∈ s.identities c, identity = rules.ident c)
    (buffers : ∀ e ∈ s.heads, (s.identities e.container).isSome)
    (sealings : ∀ x ∈ s.sealings, InFlight cfg rules s.toDisk x)
    (containers : (s.sealings.map Sealing.container).Nodup) : Coherent cfg rules s where
  stored := stored
  running _ := heads
  stopped hstopped := nomatch hready.symm.trans hstopped
  identities := identities
  buffers := buffers
  sealings := sealings
  containers := containers

namespace Coherent

variable (h : Coherent cfg rules s) {y : Sealing J}
include h

theorem openBuffer (hline : identityFromLine line = rules.ident line.containerId) :
    Coherent cfg rules (s.openBuffer line) := by
  refine { h with identities := fun c identity hidentity ↦ ?_, buffers := fun e he ↦ ?_ }
  · by_cases hc : c = line.containerId
    · subst hc
      simp only [State.openBuffer, update_self, Option.mem_some_iff] at hidentity
      cases hold : s.identities line.containerId with
      | none => rw [← hidentity, hold, Option.getD_none, hline]
      | some old =>
        rw [← hidentity, hold]
        exact h.identities _ _ hold
    · simp only [State.openBuffer, update_of_ne hc] at hidentity
      exact h.identities c identity hidentity
  · by_cases hc : e.container = line.containerId
    · simp only [State.openBuffer, hc, update_self, Option.isSome_some]
    · simp only [State.openBuffer, update_of_ne hc]
      exact h.buffers e he

theorem dropSealing (c : String) : Coherent cfg rules (s.dropSealing c) := by
  refine ⟨h.stored, h.running, fun hready ↦ ?_, h.identities, h.buffers,
    fun x hx ↦ h.sealings x (mem_of_mem_filter hx),
    h.containers.sublist (filter_sublist.map _)⟩
  obtain ⟨hheads, hsealings⟩ := h.stopped hready
  exact ⟨hheads, by rw [State.dropSealing, hsealings]; rfl⟩

theorem ready_of_sealing (hx : x ∈ s.sealings) : s.ready := by
  by_contra hstopped
  simp [(h.stopped (Bool.eq_false_iff.mpr hstopped)).2] at hx

theorem sealing_unique (hx : x ∈ s.sealings)
    (hy : y ∈ s.sealings) (heq : x.container = y.container) : x = y :=
  inj_on_of_nodup_map h.containers hx hy heq

theorem sealing_of_file (hx : x ∈ s.sealings)
    (hy : y ∈ s.sealings) (heq : x.file = y.file) : x = y := by
  have hborn : ∀ z ∈ s.sealings, z.generation ∈ s.born := fun z hz ↦
    h.stored.filesBorn _ (h.sealings z hz).file
  have hgeneration := h.stored.name_injective (hborn x hx) (hborn y hy) heq
  have hentries : x.entries = y.entries := congrArg Generation.entries hgeneration
  cases hlist : x.entries with
  | nil => exact absurd hlist (h.stored.nonempty _ (hborn x hx))
  | cons e rest =>
    have he : e ∈ x.entries := hlist ▸ mem_cons_self
    apply h.sealing_unique hx hy
    rw [← (h.sealings x hx).owned e he, ← (h.sealings y hy).owned e (hentries ▸ he)]

end Coherent

theorem mem_of_sealingOf (h : s.sealingOf c = some x) : x ∈ s.sealings ∧ x.container = c :=
  ⟨mem_of_find?_eq_some h, by simpa using List.find?_some h⟩

variable (h : Coherent cfg rules s)
include h

theorem Coherent.setStage (hx : s.sealingOf c = some x) {stage : Stage}
    (hstage : stage.Reached cfg s.toDisk x.part) : Coherent cfg rules (s.setStage c stage) := by
  obtain ⟨hmem, hcontainer⟩ := mem_of_sealingOf hx
  have hready := h.ready_of_sealing hmem
  have hmap : (s.setStage c stage).sealings.map Sealing.container =
      s.sealings.map Sealing.container := by
    rw [State.setStage, map_map]
    apply map_congr_left
    intro y _
    simp only [Function.comp]
    split <;> rfl
  refine coherent_running hready h.stored (h.running hready) h.identities h.buffers
    (fun y hy ↦ ?_) (hmap ▸ h.containers)
  obtain ⟨y, hold, rfl⟩ := mem_map.mp hy
  have hinflight := h.sealings y hold
  split
  · rename_i hc
    obtain rfl := h.sealing_unique hmem hold (hcontainer.trans hc.symm)
    exact { hinflight with stage := hstage }
  · exact hinflight

theorem advance_write (howns : rules.Owns s.toDisk line)
    (hallowed : rules.appends s.toDisk line) : Advance cfg rules s (write cfg s line) := by
  rw [write]
  split
  · exact .refl h
  rename_i hready
  rw [Bool.not_eq_false] at hready
  split
  · exact .refl h
  have hopen := h.openBuffer howns.labels
  split
  · exact ⟨hopen, .refl⟩
  rename_i hfits
  have hmove : Move cfg rules s.toDisk (s.toDisk.append ⟨s.accepted.length, line⟩) :=
    .append howns (Nat.le_of_not_lt hfits) hallowed
  refine ⟨coherent_running hready (h.stored.move hmove) ?_ hopen.identities
    (forall_mem_append.mpr ⟨hopen.buffers, forall_mem_singleton.mpr ?_⟩)
    (fun x hx ↦ ?_) h.containers, .single hmove⟩
  · exact congrArg (· ++ _) (h.running hready)
  · simp only [State.openBuffer, State.onDisk, Entry.container, update_self, Option.isSome_some]
  · exact (h.sealings x hx).mono (h.sealings x hx).file (.of_eq rfl)

theorem advance_sync (containers : List String) : Advance cfg rules s (sync s containers) := by
  rw [sync]
  split
  · exact .refl h
  · have hmove : Move cfg rules s.toDisk (s.toDisk.sync containers) := .sync containers
    refine ⟨{ h with stored := h.stored.move hmove, sealings := ?_ }, .single hmove⟩
    exact fun x hx ↦ (h.sealings x hx).mono (h.sealings x hx).file (.of_eq rfl)

theorem Coherent.ready_of_head (hhead : s.headOf c ≠ []) : s.ready := by
  by_contra hstopped
  simp [State.headOf, (h.stopped (Bool.eq_false_iff.mpr hstopped)).1] at hhead

theorem Coherent.headOf_eq (hready : s.ready) (c : String) :
    s.headOf c = s.wal.filter (inContainer c) := by
  rw [State.headOf, h.running hready]

theorem Coherent.inFile_head (hhead : s.headOf c ≠ []) :
    ∀ e ∈ s.wal, inFile (walFileName c) e = inContainer c e := by
  obtain ⟨first, hfirst⟩ := exists_mem_of_ne_nil _ hhead
  rw [h.headOf_eq (h.ready_of_head hhead)] at hfirst
  obtain ⟨hwal, hc⟩ := mem_filter.mp hfirst
  obtain rfl : first.container = c := of_decide_eq_true hc
  exact fun e he ↦ h.stored.inFile_eq hwal he

theorem Coherent.filter_inFile (hhead : s.headOf c ≠ []) :
    s.wal.filter (inFile (walFileName c)) = s.headOf c := by
  rw [h.headOf_eq (h.ready_of_head hhead)]
  exact filter_congr (h.inFile_head hhead)

theorem Coherent.filter_not_inFile (hhead : s.headOf c ≠ []) :
    s.wal.filter (fun e ↦ !inFile (walFileName c) e) = s.wal.filter fun e ↦ !inContainer c e :=
  filter_congr fun e he ↦ congrArg _ (h.inFile_head hhead e he)

theorem advance_rotate (hhead : s.headOf c ≠ []) (withBloom : Bool) :
    Advance cfg rules s
      ((s.onDisk (·.renameActive (walFileName c) .sealed withBloom)).takeHead c) := by
  have hready := h.ready_of_head hhead
  have hmove : Move cfg rules s.toDisk (s.toDisk.renameActive (walFileName c) .sealed withBloom) :=
    .rename .sealed withBloom (h.filter_inFile hhead ▸ hhead)
  refine ⟨coherent_running hready (h.stored.move hmove) ?_ h.identities
    (fun e he ↦ h.buffers e (mem_of_mem_filter he)) (fun x hx ↦ ?_) h.containers,
    .single hmove⟩
  · exact (congrArg (List.filter fun e ↦ !inContainer c e) (h.running hready)).trans
      (h.filter_not_inFile hhead).symm
  · exact (h.sealings x hx).mono (mem_append_left _ (h.sealings x hx).file) (.of_eq rfl)

theorem Coherent.addSealing (hready : s.ready) (hx : InFlight cfg rules s.toDisk x)
    (hfree : s.sealingOf x.container = none) :
    Coherent cfg rules { s with sealings := s.sealings ++ [x] } := by
  refine coherent_running hready h.stored (h.running hready) h.identities h.buffers
    (forall_mem_append.mpr ⟨h.sealings, forall_mem_singleton.mpr hx⟩) ?_
  rw [map_append]
  refine h.containers.append (nodup_singleton _) ?_
  intro c hold hnew
  obtain ⟨y, hy, rfl⟩ := mem_map.mp hold
  exact List.find?_eq_none.mp hfree y hy (decide_eq_true (mem_singleton.mp hnew))

theorem advance_beginSeal (c : String) (withBloom : Bool) :
    Advance cfg rules s (beginSeal s c withBloom) := by
  rw [beginSeal]
  split
  · rename_i identity e rest hnone hidentity hhead
    have hne : s.headOf c ≠ [] := hhead ▸ cons_ne_nil e rest
    have hready := h.ready_of_head hne
    have hrotated := advance_rotate h hne withBloom
    refine ⟨hrotated.coherent.addSealing hready ⟨?_, h.identities c _ hidentity, ?_, trivial⟩ hnone,
      hrotated.moves⟩
    · refine mem_append_right _ (mem_singleton.mpr ?_)
      rw [Disk.frozen, h.filter_inFile hne, hhead]
      rfl
    · intro e' he'
      rw [← hhead] at he'
      exact of_decide_eq_true (mem_filter.mp he').2
  · exact .refl h

theorem Coherent.key_of_sealing (hx : x ∈ s.sealings) : identityOf x.entries = some x.identity := by
  have hinflight := h.sealings x hx
  rw [hinflight.identity]
  exact h.stored.identityOf_part (h.stored.filesBorn _ hinflight.file)
    (mem_singleton_self x.part) hinflight.owned

theorem advance_sealObject (c : String) (stored : Bool) :
    Advance cfg rules s (sealObject cfg s c stored) := by
  fun_cases sealObject cfg s c stored
  case case1 hx key _ hencoded _ =>
    exact ⟨h.setStage hx (partKey_eq (h.key_of_sealing (mem_of_sealingOf hx).1) hencoded), .refl⟩
  case case2 | case3 => exact ⟨h.dropSealing c, .refl⟩
  case case4 => exact .refl h

theorem advance_sealInsert (c : String) (fate : Fate) :
    Advance cfg rules s (sealInsert s c fate) := by
  rw [sealInsert]
  split
  · rename_i container identity entries file withBloom key hx
    have hmem := (mem_of_sealingOf hx).1
    have hinflight := h.sealings _ hmem
    have hkey : partKey cfg ⟨withBloom, entries, none⟩ = some key := hinflight.stage
    have hrow : RowFrom cfg rules.batchBytes ⟨file, .sealed, withBloom, entries⟩
        (rowOf identity key entries file 0) :=
      ⟨⟨withBloom, entries, none⟩, identity, rfl, h.key_of_sealing hmem, hkey, rfl⟩
    have hmove : Move cfg rules s.toDisk (s.toDisk.insertRow (rowOf identity key entries file 0)) :=
      .insertRow hinflight.file hrow rfl
    have hinserted : Coherent cfg rules
        (s.onDisk (·.insertRow (rowOf identity key entries file 0))) :=
      { h with
        stored := h.stored.move hmove
        sealings := fun x hx ↦
          (h.sealings x hx).mono (h.sealings x hx).file (keysKept_insertRow _ _) }
    cases fate with
    | done =>
      have hcommitted : Committed cfg _ ⟨withBloom, entries, none⟩ :=
        committed_insertRow (r := rowOf identity key entries file 0) hkey s.toDisk
      exact ⟨hinserted.setStage hx hcommitted, .single hmove⟩
    | lost => exact ⟨hinserted.dropSealing c, .single hmove⟩
    | refused => exact ⟨h.dropSealing c, .refl⟩
    | crash => exact .refl h
  · exact .refl h

theorem advance_sealFinish (c : String) (removed : Bool) :
    Advance cfg rules s (sealFinish s c removed) := by
  rw [sealFinish]
  split
  · rename_i container identity entries file withBloom hx
    obtain ⟨hmem, hcontainer⟩ := mem_of_sealingOf hx
    have hinflight := h.sealings _ hmem
    have hready := h.ready_of_sealing hmem
    split
    · have hmove : Move cfg rules s.toDisk (s.toDisk.removeFile file) :=
        .removeFile hinflight.file fun p hp ↦ mem_singleton.mp hp ▸ hinflight.stage
      refine ⟨coherent_running hready (h.stored.move hmove) (h.running hready) h.identities h.buffers
        (fun y hy ↦ ?_) (h.dropSealing c).containers, .single hmove⟩
      obtain ⟨hold, hne⟩ := mem_filter.mp hy
      have hother := h.sealings y hold
      refine hother.mono (mem_filter.mpr ⟨hother.file, decide_eq_true fun heq ↦ ?_⟩)
        (.of_eq rfl)
      have hsame := h.sealing_of_file hmem hold heq.symm
      exact of_decide_eq_true hne (hsame ▸ hcontainer)
    · exact ⟨h.dropSealing c, .refl⟩
  · exact .refl h

theorem advance_crash (cut : String → ℕ) : Advance cfg rules s (s.crash cut) := by
  have hmove : Move cfg rules s.toDisk (s.toDisk.cutTails cut) := .cutTails cut
  exact ⟨⟨h.stored.move hmove, fun hready ↦ (nomatch hready), fun _ ↦ ⟨rfl, rfl⟩,
    fun _ _ hidentity ↦ (nomatch hidentity), fun _ he ↦ (nomatch he), fun _ hx ↦ (nomatch hx),
    nodup_nil⟩,
    .single hmove⟩

end Temps.LogAggregator.Services.ChunkWriter
