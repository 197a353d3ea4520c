import Temps.Lib.Machine
import Temps.LogAggregator.Services.WriterSteps

namespace Temps.LogAggregator.Services.ChunkWriter

open Lib Lib.Faults LogAggregator.Types Chunk Chunk.Wal Seal List
open Store.ManifestRepo (column)

variable {J : Type} {cfg : Config J} {rules : Rules J} {s₀ s : State J} {fates : List Fate}
  {Q : Unit → State J → Prop} {R : State J → Prop} {g : Generation J} {c : String}
  {run : List (Action J)} {f : Disk J → Disk J} {withBloom : Bool}

theorem ends_commit {identity : ChunkIdentity} {p : Part J} {i : ℕ}
    (hg : g ∈ s.files) (hp : (parts cfg rules.batchBytes g)[i]? = some p)
    (hidentity : identityOf p.entries = some identity) (hsame : R s)
    (hrow : ∀ r, Move cfg rules s.toDisk (s.toDisk.insertRow r) →
      partKey cfg p = some r.storageKey →
        Q () (s.onDisk (·.insertRow r)) ∧ R (s.onDisk (·.insertRow r))) :
    Ends (commit cfg identity p g.name i s fates) Q R := by
  apply ends_bind
  refine ends_lift ?_ hsame
  rintro ⟨key, encoded⟩ hencoded fates₁ -
  have hkey := partKey_eq hidentity hencoded
  have hmove : Move cfg rules s.toDisk (s.toDisk.insertRow (rowOf identity key p.entries g.name i)) :=
    .insertRow hg (rowFrom_rowOf hp hidentity hkey) rfl
  obtain ⟨hdone, hlost⟩ := hrow _ hmove hkey
  apply ends_bind
  refine ends_update (fun fates₂ _ ↦ ?_) hsame hsame
  exact ends_update hdone hlost hsame

structure Halted (cfg : Config J) (rules : Rules J) (s₀ s : State J) : Prop
    extends Advance cfg rules s₀ s where
  stopped : s.ready = false

theorem Halted.move (h : Halted cfg rules s₀ s) (hmove : Move cfg rules s.toDisk (f s.toDisk)) :
    Halted cfg rules s₀ (s.onDisk f) := by
  obtain ⟨hheads, hsealings⟩ := h.coherent.stopped h.stopped
  refine ⟨⟨⟨h.coherent.stored.move hmove, ?_, fun _ ↦ ⟨hheads, hsealings⟩, h.coherent.identities,
    h.coherent.buffers, ?_, h.coherent.containers⟩, h.moves.tail hmove⟩, h.stopped⟩
  · exact fun hready ↦ nomatch h.stopped.symm.trans hready
  · intro x hx
    rw [State.onDisk, hsealings] at hx
    cases hx

theorem filter_other {α β : Type} [DecidableEq β] (key : α → β) {k k' : β} (hne : k' ≠ k)
    (l : List α) : (l.filter fun a ↦ !decide (key a = k)).filter (fun a ↦ key a = k') =
      l.filter fun a ↦ key a = k' := by
  rw [filter_filter]
  apply filter_congr
  grind

structure Freezing (cfg : Config J) (rules : Rules J) (s₀ : State J) (rest : List Text)
    (s : State J) : Prop extends Halted cfg rules s₀ s where
  nodup : rest.Nodup
  nonempty : ∀ file ∈ rest, s.wal.filter (inFile file) ≠ []
  covers : ∀ e ∈ s.wal, e.file ∈ rest

theorem ends_freezeActive {file : Text} {rest : List Text}
    (h : Freezing cfg rules s₀ (file :: rest) s) :
    Ends (freezeActive withBloom file s fates) (fun _ ↦ Freezing cfg rules s₀ rest)
      (Halted cfg rules s₀) := by
  have hmove : Move cfg rules s.toDisk (s.toDisk.renameActive file .recovery withBloom) :=
    .rename .recovery withBloom (h.nonempty file mem_cons_self)
  have hnext := h.toHalted.move (f := fun d ↦ d.renameActive file .recovery withBloom) hmove
  obtain ⟨hfile, hnodup⟩ := nodup_cons.mp h.nodup
  refine ends_update ⟨hnext, hnodup, ?_, ?_⟩ hnext h.toHalted
  · intro file' hrest
    have hne : file' ≠ file := fun heq ↦ hfile (heq ▸ hrest)
    have hsame := filter_other Entry.file hne s.wal
    exact hsame ▸ h.nonempty file' (mem_cons_of_mem _ hrest)
  · intro e he
    obtain ⟨hwal, hother⟩ := mem_filter.mp he
    have hne : e.file ≠ file := by simpa [inFile] using hother
    exact (mem_cons.mp (h.covers e hwal)).resolve_left hne

structure Committing (cfg : Config J) (rules : Rules J) (s₀ s₁ : State J) (g : Generation J)
    (rest : List (Part J × ℕ)) (s : State J) : Prop extends Halted cfg rules s₀ s where
  files : s.files = s₁.files
  wal : s.wal = s₁.wal
  rest_parts : ∀ q ∈ rest, q ∈ (parts cfg rules.batchBytes g).zipIdx
  committed : ∀ q ∈ (parts cfg rules.batchBytes g).zipIdx, q ∈ rest ∨ Committed cfg s.toDisk q.1

theorem ends_recoverPart {s₁ : State J} {q : Part J × ℕ} {rest : List (Part J × ℕ)}
    (hg : g ∈ s₁.files) (h : Committing cfg rules s₀ s₁ g (q :: rest) s) :
    Ends (recoverPart cfg g.name q s fates) (fun _ ↦ Committing cfg rules s₀ s₁ g rest)
      (Halted cfg rules s₀) := by
  obtain ⟨p, i⟩ := q
  have hfile : g ∈ s.files := h.files ▸ hg
  have hborn := h.coherent.stored.filesBorn g hfile
  have hp : (parts cfg rules.batchBytes g)[i]? = some p :=
    mk_mem_zipIdx_iff_getElem?.mp (h.rest_parts _ mem_cons_self)
  obtain ⟨c, hc⟩ := h.coherent.stored.owned g hborn
  have hidentity := h.coherent.stored.identityOf_part hborn (mem_of_getElem? hp)
    fun e he ↦ (hc e he).1
  rw [recoverPart, hidentity]
  refine ends_commit hfile hp hidentity h.toHalted ?_
  intro r hmove hkey
  have hnext := h.toHalted.move (f := fun d ↦ d.insertRow r) hmove
  refine ⟨⟨hnext, h.files, h.wal, fun q hq ↦ h.rest_parts q (mem_cons_of_mem _ hq), ?_⟩, hnext⟩
  intro q hq
  rcases h.committed q hq with hrest | hdone
  · rcases mem_cons.mp hrest with rfl | hrest
    · exact .inr (committed_insertRow hkey s.toDisk)
    · exact .inl hrest
  · exact .inr (hdone.mono (keysKept_insertRow s.toDisk r))

structure Replaying (cfg : Config J) (rules : Rules J) (s₀ : State J) (rest : List (Generation J))
    (s : State J) : Prop extends Halted cfg rules s₀ s where
  wal : s.wal = []
  nodup : rest.Nodup
  files : ∀ g ∈ rest, g ∈ s.files

theorem ends_recoverFile {rest : List (Generation J)} (h : Replaying cfg rules s₀ (g :: rest) s) :
    Ends (recoverFile cfg rules.batchBytes g s fates) (fun _ ↦ Replaying cfg rules s₀ rest)
      (Halted cfg rules s₀) := by
  obtain ⟨hg, hnodup⟩ := nodup_cons.mp h.nodup
  have hfile := h.files g mem_cons_self
  have hborn := h.coherent.stored.filesBorn g hfile
  have hothers : ∀ g' ∈ rest, g' ∈ (s.toDisk.removeFile g.name).files := fun g' hg' ↦
    h.coherent.stored.mem_removeFile hborn (h.files g' (mem_cons_of_mem _ hg'))
      fun heq ↦ hg (heq ▸ hg')
  rw [recoverFile]
  split
  · rename_i hlarge
    have hnext := h.toHalted.move (f := fun d ↦ d.deferFile g) (.deferFile hfile hlarge.2)
    exact ends_update ⟨hnext, h.wal, hnodup, hothers⟩ hnext h.toHalted
  · have hloop : Committing cfg rules s₀ s g (parts cfg rules.batchBytes g).zipIdx s :=
      ⟨h.toHalted, rfl, rfl, fun _ hq ↦ hq, fun _ hq ↦ .inl hq⟩
    refine (ends_loop (fun q rest s fates ↦ ends_recoverPart hfile) hloop).bind ?_
    intro _ s' fates' hdone
    have hall : ∀ p ∈ parts cfg rules.batchBytes g, Committed cfg s'.toDisk p := by
      intro p hp
      obtain ⟨i, hi⟩ := List.getElem?_of_mem hp
      exact (hdone.committed (p, i) (mk_mem_zipIdx_iff_getElem?.mpr hi)).resolve_left
        not_mem_nil
    have hnext := hdone.toHalted.move (f := fun d ↦ d.removeFile g.name)
      (.removeFile (hdone.files ▸ hfile) hall)
    refine ends_update ⟨hnext, hdone.wal.trans h.wal, hnodup, fun g' hg' ↦ ?_⟩ hnext hdone.toHalted
    have hmem := hothers g' hg'
    rwa [Disk.removeFile, ← hdone.files] at hmem

theorem Freezing.replaying (h : Freezing cfg rules s₀ [] s) :
    Replaying cfg rules s₀
      (s.files.filter (·.kind = .sealed) ++ s.files.filter (·.kind = .recovery)) s := by
  refine ⟨h.toHalted, eq_nil_iff_forall_not_mem.mpr fun e he ↦ not_mem_nil (h.covers e he), ?_, ?_⟩
  · have hnodup := h.coherent.stored.filesNodup
    refine (hnodup.filter _).append (hnodup.filter _) ?_
    intro g hsealed hrecovery
    have hk : g.kind = .sealed := of_decide_eq_true (mem_filter.mp hsealed).2
    have hk' : g.kind = .recovery := of_decide_eq_true (mem_filter.mp hrecovery).2
    exact nomatch hk.symm.trans hk'
  · intro g hg
    rcases mem_append.mp hg with hg | hg <;> exact mem_of_mem_filter hg

theorem Coherent.moveRunning (h : Coherent cfg rules s) (hready : s.ready)
    (hmove : Move cfg rules s.toDisk (f s.toDisk))
    (hwal : (f s.toDisk).wal = s.wal) (hfiles : ∀ x ∈ s.sealings, x.generation ∈ (f s.toDisk).files)
    (hkeys : KeysKept s.toDisk (f s.toDisk)) : Advance cfg rules s (s.onDisk f) :=
  ⟨coherent_running hready (h.stored.move hmove) ((h.running hready).trans hwal.symm) h.identities
    h.buffers (fun x hx ↦ (h.sealings x hx).mono (hfiles x hx) hkeys) h.containers, .single hmove⟩

structure Purging (cfg : Config J) (rules : Rules J) (project : ℤ) (s₀ : State J)
    (rest : List String) (s : State J) : Prop extends Advance cfg rules s₀ s where
  ready : s.ready = true
  known : ∀ c ∈ rest, (s.identities c).isSome
  nodup : rest.Nodup
  files : ∀ g ∈ s.files, g ∈ s₀.files
  born : ∀ g ∈ s.born, g ∈ s₀.born ∨ g.kind = .sealed ∧ ∃ c, g.entries = s₀.wal.filter (inContainer c)
  wal : ∀ c ∈ rest, s.wal.filter (inContainer c) = s₀.wal.filter (inContainer c)
  covers : ∀ e ∈ s.wal, (rules.ident e.container).projectId = project → e.container ∈ rest

theorem ends_sealNow {project : ℤ} {rest : List String}
    (h : Purging cfg rules project s₀ (c :: rest) s) :
    Ends (sealNow cfg withBloom c s fates) (fun _ ↦ Purging cfg rules project s₀ rest)
      (Advance cfg rules s₀) := by
  obtain ⟨hc, hnodup⟩ := nodup_cons.mp h.nodup
  obtain ⟨identity, hidentity⟩ := Option.isSome_iff_exists.mp (h.known c mem_cons_self)
  have hstored := h.coherent.stored
  have hknown : ∀ c ∈ rest, (s.identities c).isSome := fun c hc ↦ h.known c (mem_cons_of_mem _ hc)
  have hothers : ∀ c' ∈ rest, c' ≠ c := fun c' hc' heq ↦ hc (heq ▸ hc')
  apply ends_bind
  intro fates₁ _
  simp only [id, hidentity]
  cases hhead : s.headOf c with
  | nil =>
    refine ends_pure ⟨h.toAdvance, h.ready, hknown, hnodup, h.files, h.born,
      fun c hc ↦ h.wal c (mem_cons_of_mem _ hc), fun e he hproject ↦ ?_⟩
    refine (mem_cons.mp (h.covers e he hproject)).resolve_left fun heq ↦ ?_
    rw [h.coherent.headOf_eq h.ready] at hhead
    exact filter_eq_nil_iff.mp hhead e he (decide_eq_true heq)
  | cons e entries =>
    have hne : s.headOf c ≠ [] := hhead ▸ cons_ne_nil e entries
    have hwal : (s.onDisk (·.renameActive (walFileName c) .sealed withBloom)).wal =
        s.wal.filter fun e ↦ !inContainer c e := h.coherent.filter_not_inFile hne
    have hrotated := advance_rotate h.coherent hne withBloom
    apply ends_bind
    refine ends_update (fun fates₂ _ ↦ ?_) (h.toAdvance.trans hrotated) h.toAdvance
    let g : Generation J := ⟨s.nextName, .sealed, withBloom, e :: entries⟩
    let s₁ := (s.onDisk (·.renameActive (walFileName c) .sealed withBloom)).takeHead c
    have hg : g ∈ s₁.files := by
      refine mem_append_right _ (mem_singleton.mpr ?_)
      rw [Disk.frozen, h.coherent.filter_inFile hne, hhead]
    have hborn : g ∈ s₁.born := hrotated.coherent.stored.filesBorn g hg
    have hpart : identityOf (e :: entries) = some identity := by
      rw [h.coherent.identities c identity hidentity]
      refine hrotated.coherent.stored.identityOf_part hborn
        (mem_singleton_self (⟨withBloom, e :: entries, none⟩ : Part J)) ?_
      intro e' he'
      have hmem : e' ∈ s.headOf c := by rwa [hhead]
      exact of_decide_eq_true (mem_filter.mp hmem).2
    have hwhole : (parts cfg rules.batchBytes g)[0]? = some ⟨withBloom, e :: entries, none⟩ := rfl
    apply ends_bind
    apply ends_commit hg hwhole hpart (h.toAdvance.trans hrotated)
    intro r hmove hkey
    have hinserted : Advance cfg rules s₁ (s₁.onDisk (·.insertRow r)) :=
      hrotated.coherent.moveRunning h.ready hmove rfl
        (fun x hx ↦ (hrotated.coherent.sealings x hx).file) (keysKept_insertRow _ r)
    refine ⟨fun fates₃ _ ↦ ?_, (h.toAdvance.trans hrotated).trans hinserted⟩
    have hremove : Move cfg rules (s₁.onDisk (·.insertRow r)).toDisk
        ((s₁.onDisk (·.insertRow r)).toDisk.removeFile g.name) :=
      .removeFile hg fun p hp ↦ mem_singleton.mp hp ▸ committed_insertRow hkey s₁.toDisk
    have hremoved : Advance cfg rules (s₁.onDisk (·.insertRow r))
        ((s₁.onDisk (·.insertRow r)).onDisk (·.removeFile g.name)) := by
      refine hinserted.coherent.moveRunning h.ready hremove rfl (fun x hx ↦ ?_) (.of_eq rfl)
      -- A seal in flight has an older generation.
      have hold := hstored.fresh _ (hstored.filesBorn _ (h.coherent.sealings x hx).file)
      refine mem_filter.mpr ⟨(hinserted.coherent.sealings x hx).file, ?_⟩
      exact decide_eq_true hold.ne
    have hall := ((h.toAdvance.trans hrotated).trans hinserted).trans hremoved
    refine ends_update ⟨hall, h.ready, hknown, hnodup, ?_, ?_, ?_, ?_⟩ hall
      ((h.toAdvance.trans hrotated).trans hinserted)
    · intro g' hg'
      obtain ⟨hmem, hname⟩ := mem_filter.mp hg'
      rcases mem_append.mp hmem with hold | hnew
      · exact h.files g' hold
      · rw [mem_singleton.mp hnew] at hname
        exact absurd rfl (of_decide_eq_true hname)
    · refine forall_mem_append.mpr
        ⟨h.born, forall_mem_singleton.mpr (.inr ⟨rfl, c, ?_⟩)⟩
      rw [Disk.frozen, h.coherent.filter_inFile hne, h.coherent.headOf_eq h.ready]
      exact h.wal c mem_cons_self
    · intro c' hc'
      refine .trans ?_ (h.wal c' (mem_cons_of_mem _ hc'))
      exact (congrArg _ hwal).trans
        (filter_other Entry.container (hothers c' hc') s.wal)
    · intro e' he' hproject
      rw [State.onDisk, Disk.removeFile] at he'
      obtain ⟨hmem, hother⟩ := mem_filter.mp (hwal ▸ he')
      have hne' : e'.container ≠ c := by simpa [inContainer] using hother
      exact (mem_cons.mp (h.covers e' hmem hproject)).resolve_left hne'

structure AfterPurge (cfg : Config J) (rules : Rules J) (project before : ℤ) (s₀ s : State J) : Prop
    extends Advance cfg rules s₀ s where
  files : ∀ g ∈ s.files, g ∈ s₀.files
  born : ∀ g ∈ s.born, g ∈ s₀.born ∨ g.kind = .sealed ∧ ∃ c, g.entries = s₀.wal.filter (inContainer c)
  wal : ∀ e ∈ s.wal, (rules.ident e.container).projectId ≠ project
  dead : ∀ r ∈ s.rows, r.projectId = project → r.endedAt < column before → r.live = false

def Rules.Admits (rules : Rules J) (d : Disk J) : Action J → Prop
  | .write line => rules.Owns d line ∧ rules.appends d line
  | .recover batchBytes _ _ => batchBytes = rules.batchBytes
  | .purge .. => rules.purges
  | _ => True

abbrev Rules.AdmitsRun (rules : Rules J) (cfg : Config J) : State J → List (Action J) → Prop :=
  Machine.Along (step cfg) fun s ↦ rules.Admits s.toDisk

section

variable (rules)

instance decidableOwns (d : Disk J) (line : LogLine J) : Decidable (rules.Owns d line) :=
  decidable_of_iff' _ (rules.owns_iff d line)

variable [∀ d line, Decidable (rules.appends d line)] [Decidable rules.purges]

instance decidableAdmits (d : Disk J) (a : Action J) : Decidable (rules.Admits d a) := by
  cases a <;> dsimp only [Rules.Admits] <;> infer_instance

end

section

variable (h : Coherent cfg rules s)
include h

section

variable (hstopped : s.ready = false)
include hstopped

theorem freezing_start : Freezing cfg rules s (s.wal.map Entry.file).dedup s := by
  refine ⟨⟨.refl h, hstopped⟩, nodup_dedup _, fun c hc ↦ ?_, fun e he ↦ ?_⟩
  · obtain ⟨e, he, rfl⟩ := mem_map.mp (mem_dedup.mp hc)
    exact ne_nil_of_mem (mem_filter.mpr ⟨he, decide_eq_true rfl⟩)
  · exact mem_dedup.mpr (mem_map_of_mem he)

variable (withBloom : Bool) (fates : List Fate)

theorem ends_recoverWal :
    Ends (recoverWal cfg rules.batchBytes withBloom s fates)
      (fun _ s' ↦ Halted cfg rules s s' ∧ s'.wal = []) (Halted cfg rules s) := by
  apply ends_bind
  intro fates₁ _
  refine (ends_loop (fun c rest s fates ↦ ends_freezeActive) (freezing_start h hstopped)).bind ?_
  intro _ s₂ fates₂ hfrozen
  apply ends_bind
  intro fates₃ _
  refine (ends_loop (fun g rest s fates ↦ ends_recoverFile) hfrozen.replaying).mono ?_ fun _ h ↦ h
  intro _ s₃ hdone
  exact ⟨hdone.toHalted, hdone.wal⟩

theorem advance_recover :
    Advance cfg rules s (recover cfg rules.batchBytes withBloom s fates) ∧
      ((recover cfg rules.batchBytes withBloom s fates).ready →
        (recover cfg rules.batchBytes withBloom s fates).files = [] ∧
          (recover cfg rules.batchBytes withBloom s fates).sealings = []) := by
  have hends := ends_recoverWal h hstopped withBloom fates
  rw [Ends] at hends
  rw [recover]
  generalize recoverWal cfg rules.batchBytes withBloom s fates = r at hends
  cases hr : r.outcome with
  | returned a =>
    simp only [hr] at hends
    obtain ⟨hhalted, hwal⟩ := hends
    have hcoherent := hhalted.coherent
    obtain ⟨hheads, hsealings⟩ := hcoherent.stopped hhalted.stopped
    refine ⟨⟨{ hcoherent with
      running := fun _ ↦ hheads.trans hwal.symm
      stopped := fun _ ↦ ⟨hheads, hsealings⟩ }, hhalted.moves⟩, ?_⟩
    exact fun hready ↦ ⟨List.isEmpty_iff.mp hready, hsealings⟩
  | failed e | crashed =>
    simp only [hr] at hends
    refine ⟨hends.toAdvance, fun hready ↦ ?_⟩
    cases hends.stopped.symm.trans hready

end

theorem purging_start (hready : s.ready)
    (project : ℤ) : Purging cfg rules project s (headsOfProject s project) s := by
  refine ⟨.refl h, hready, fun c hc ↦ ?_, (nodup_dedup _).filter _, fun _ hg ↦ hg,
    fun _ hg ↦ .inl hg, fun _ _ ↦ rfl, fun e he hproject ↦ ?_⟩
  · have hany := (mem_filter.mp hc).2
    cases hidentity : s.identities c with
    | none => simp [hidentity] at hany
    | some identity => rfl
  · have hhead : e ∈ s.heads := h.running hready ▸ he
    obtain ⟨identity, hidentity⟩ := Option.isSome_iff_exists.mp (h.buffers e hhead)
    refine mem_filter.mpr ⟨mem_dedup.mpr (mem_map_of_mem hhead), ?_⟩
    rw [hidentity, Option.any_some, decide_eq_true_eq, h.identities _ _ hidentity]
    exact hproject

section

variable (hallowed : rules.purges) (project before : ℤ) (withBloom : Bool) (fates : List Fate)
include hallowed

theorem ends_manualPurge (hready : s.ready) :
    Ends (manualPurge cfg project before withBloom s fates)
      (fun _ ↦ AfterPurge cfg rules project before s) (Advance cfg rules s) := by
  apply ends_bind
  intro fates₁ _
  refine (ends_loop (fun c rest s fates ↦ ends_sealNow) (purging_start h hready project)).bind ?_
  intro _ s₁ fates₂ hsealed
  have hmove : Move cfg rules s₁.toDisk (s₁.toDisk.mapRows (expire project before)) :=
    .expire project before hallowed
  have hkeys : KeysKept s₁.toDisk (s₁.toDisk.mapRows (expire project before)) := by
    intro r hr
    obtain ⟨live, hlive⟩ := expire_live project before r
    exact ⟨_, mem_map_of_mem hr, by rw [hlive]⟩
  have hexpired := hsealed.coherent.moveRunning (f := fun d ↦ d.mapRows _) hsealed.ready hmove rfl
    (fun x hx ↦ (hsealed.coherent.sealings x hx).file) hkeys
  have hall := hsealed.toAdvance.trans hexpired
  apply ends_bind
  refine ends_update (fun fates₃ _ ↦ ?_) hall hsealed.toAdvance
  refine ⟨⟨{ hall.coherent with }, hall.moves⟩,
    hsealed.files, hsealed.born, fun e he hproject ↦ ?_, fun r hr hproject hended ↦ ?_⟩
  · exact not_mem_nil (hsealed.covers e he hproject)
  · obtain ⟨r, -, rfl⟩ := mem_map.mp hr
    rw [expire] at hproject hended ⊢
    split
    · rfl
    · rename_i hkept
      rw [if_neg hkept] at hproject hended
      exact absurd ⟨hproject, hended⟩ hkept

theorem advance_purge (cut : String → ℕ) :
    Advance cfg rules s (purge cfg s project before withBloom fates cut) := by
  rw [purge]
  split
  · rename_i henabled
    have hready : s.ready := (Bool.and_eq_true_iff.mp henabled).1
    have hends := (ends_manualPurge h hallowed project before withBloom fates hready).mono
      (fun _ _ hdone ↦ hdone.toAdvance) fun _ hstop ↦ hstop
    dsimp only
    split
    · exact hends.state.trans (advance_crash hends.state.coherent cut)
    · exact hends.state
  · exact .refl h

end

theorem advance_step {a : Action J} (ha : rules.Admits s.toDisk a) :
    Advance cfg rules s (step cfg s a) := by
  cases a with
  | write line => exact advance_write h ha.1 ha.2
  | sync containers => exact advance_sync h containers
  | beginSeal c withBloom => exact advance_beginSeal h c withBloom
  | sealObject c stored => exact advance_sealObject h c stored
  | sealInsert c fate => exact advance_sealInsert h c fate
  | sealFinish c removed => exact advance_sealFinish h c removed
  | purge project before withBloom fates cut =>
    exact advance_purge h ha project before withBloom fates cut
  | crash cut => exact advance_crash h cut
  | recover batchBytes withBloom fates =>
    obtain rfl : batchBytes = rules.batchBytes := ha
    rw [step]
    split
    · exact .refl h
    · rename_i hready
      exact (advance_recover h (Bool.not_eq_true _ ▸ hready) withBloom fates).1

theorem advance_exec (hrun : rules.AdmitsRun cfg s run) : Advance cfg rules s (exec cfg s run) :=
  Machine.along_invariant (fun _ _ ht ha ↦ ht.trans (advance_step ht.coherent ha)) (.refl h) hrun

end

theorem exec_append (cfg : Config J) (s : State J) (run run' : List (Action J)) :
    exec cfg s (run ++ run') = exec cfg (exec cfg s run) run' :=
  foldl_append

end Temps.LogAggregator.Services.ChunkWriter
