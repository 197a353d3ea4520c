import Mathlib.Data.List.Dedup
import Temps.LogAggregator.Services.CompactorView

namespace Temps.LogAggregator.Services.Compactor

open Lib Lib.Faults Lib.Fallible Lib.Octets Chunk Chunk.ChunkRoundTrip Seal Store.ManifestRepo
open LogAggregator.Types List

variable {J : Type} {c : CompactorService J} {w w' w'' : World} {fates : List Fate}
  {run : List Manifest} {R : World → Prop} {new m : Manifest}

section Calls

variable {α : Type} {Q : α → World → Prop} {R : World → Prop} {f : Table → α}

theorem ends_onManifests {f : Table → Except LogAggregatorError (α × Table)}
    (hok : ∀ a t, f w.manifests = .ok (a, t) →
      Q a { w with manifests := t } ∧ R { w with manifests := t }) (hsame : R w) :
    Ends (onManifests f w fates) Q R := by
  apply ends_call _ hsame
  intro a s' h
  obtain ⟨⟨b, t⟩, hf, hret⟩ := bind_eq_ok.mp h
  obtain ⟨rfl, rfl⟩ := Prod.mk.inj (Except.ok.inj hret)
  exact hok _ _ hf

theorem ends_query (hQ : Q (f w.manifests) w) (hR : R w) : Ends (queryManifests f w fates) Q R := by
  apply ends_onManifests _ hR
  intro a t h
  obtain ⟨rfl, rfl⟩ := Prod.mk.inj (Except.ok.inj h)
  exact ⟨hQ, hR⟩

theorem ends_alter {f : Table → Table} {Q : Unit → World → Prop}
    (hdone : Q () { w with manifests := f w.manifests })
    (hlost : R { w with manifests := f w.manifests }) (hsame : R w) :
    Ends (onManifests (fun t ↦ .ok ((), f t)) w fates) Q R := by
  refine ends_onManifests ?_ hsame
  intro _ t ht
  obtain ⟨-, rfl⟩ := Prod.mk.inj (Except.ok.inj ht)
  exact ⟨hdone, hlost⟩

theorem ends_attempt_query {Q : Except LogAggregatorError α → World → Prop}
    (hQ : Q (.ok (f w.manifests)) w) (herr : ∀ e, Q (.error e) w) (hR : R w) :
    Ends (Prog.attempt (queryManifests f) w fates) Q R :=
  ends_attempt (ends_query ⟨hQ, hR⟩ ⟨herr, hR⟩)

theorem ends_readStorage {key : Text} {f : Objects → Except LogAggregatorError α}
    (hok : ∀ a, f w.objects = .ok a → Q a w) (hR : R w) : Ends (readStorage key f w fates) Q R := by
  apply ends_call _ hR
  intro a s' h
  obtain ⟨b, hf, hret⟩ := bind_eq_ok.mp h
  obtain ⟨rfl, rfl⟩ := Prod.mk.inj (Except.ok.inj hret)
  exact ⟨hok _ hf, hR⟩

end Calls

structure Kept (w w' : World) : Prop where
  rows : w'.manifests.liveRows = w.manifests.liveRows
  objects : Same w.manifests.liveRows w.objects w'.objects

theorem Kept.refl (w : World) : Kept w w := ⟨rfl, fun _ _ ↦ rfl⟩

theorem Kept.trans (h : Kept w w') (h' : Kept w' w'') : Kept w w'' := by
  have hobjects := h'.objects
  rw [h.rows] at hobjects
  exact ⟨h'.rows.trans h.rows, h.objects.trans hobjects⟩

theorem Kept.visible (h : Kept w w') : visible c w' = visible c w := by
  rw [Compactor.visible, h.rows, linesOf_congr h.objects, ← Compactor.visible]

theorem kept_hardDelete (ids : List ℕ) :
    Kept w { w with manifests := w.manifests.hardDelete ids } :=
  ⟨liveRows_hardDelete ids, fun _ _ ↦ rfl⟩

section

variable {key : Text} (h : ∀ m ∈ w.manifests.liveRows, m.storageKey ≠ key)
include h

theorem kept_write (bytes : Bytes) : Kept w { w with objects := writeObject w.objects key bytes } :=
  ⟨rfl, same_writeObject h _ _⟩

theorem ends_deleteObject : Leaves (Prog.attempt (deleteChunk key) w fates) (Kept w) := by
  have hgone : Kept w { w with objects := deleteObject w.objects key } :=
    ⟨rfl, same_deleteObject h _⟩
  have hcall : Leaves (deleteChunk key w fates) (Kept w) := ends_update hgone hgone (Kept.refl w)
  exact hcall.attempt

end

structure Joined (w : World) (new : Manifest) (w' : World) : Prop where
  rows : w'.manifests.liveRows = w.manifests.liveRows ++ [new]
  objects : Same w.manifests.liveRows w.objects w'.objects

theorem Joined.visible (h : Joined w new w') :
    visible c w' = visible c w ++ linesOf c w'.objects new := by
  rw [Compactor.visible, h.rows, flatMap_append, linesOf_congr h.objects, ← Compactor.visible,
    flatMap_cons, flatMap_nil, append_nil]

/-- No visible line is lost, and every live row apart from those of the run is still there. -/
structure Advances (c : CompactorService J) (run : List Manifest) (w w' : World) : Prop where
  visible : (visible c w).Subperm (visible c w')
  others : ∀ m ∈ w.manifests.liveRows, m.id ∉ run.map Manifest.id → m ∈ w'.manifests.liveRows

theorem Kept.advances (h : Kept w w') (run : List Manifest) : Advances c run w w' := by
  refine ⟨?_, fun m hm _ ↦ ?_⟩
  · rw [h.visible]
  · rwa [h.rows]

theorem Joined.advances (h : Joined w new w') (run : List Manifest) : Advances c run w w' := by
  refine ⟨?_, fun m hm _ ↦ ?_⟩
  · rw [h.visible]
    exact (sublist_append_left _ _).subperm
  · rw [h.rows]
    exact mem_append_left _ hm

structure RunOf (w : World) (run : List Manifest) : Prop where
  nodup : run.Nodup
  live : ∀ m ∈ run, m ∈ w.manifests.liveRows

theorem id_injective {m' : Manifest} (hm : m ∈ w.manifests.rows) (hm' : m' ∈ w.manifests.rows)
    (h : m.id = m'.id) : m = m' :=
  inj_on_of_nodup_map w.manifests.ids_nodup hm hm' h

theorem RunOf.split (h : RunOf w run) :
    w.manifests.liveRows.Perm
      (run ++ w.manifests.liveRows.filter fun m ↦ m.id ∉ run.map Manifest.id) := by
  have hlive : w.manifests.liveRows.Nodup := w.manifests.nodup_rows.filter _
  have hsplit := filter_append_perm (fun m ↦ decide (m.id ∈ run.map Manifest.id))
    w.manifests.liveRows
  have hrun : (w.manifests.liveRows.filter fun m ↦ decide (m.id ∈ run.map Manifest.id)).Perm
      run := by
    rw [perm_ext_iff_of_nodup (hlive.filter _) h.nodup]
    intro m
    rw [mem_filter, decide_eq_true_eq, mem_map]
    constructor
    · rintro ⟨hm, m', hm', hid⟩
      have hrow := mem_of_mem_filter (h.live m' hm')
      rwa [← id_injective hrow (mem_of_mem_filter hm) hid]
    · intro hm
      exact ⟨h.live m hm, m, hm, rfl⟩
  have hnot : (w.manifests.liveRows.filter fun m ↦ !decide (m.id ∈ run.map Manifest.id)) =
      w.manifests.liveRows.filter fun m ↦ decide (m.id ∉ run.map Manifest.id) :=
    filter_congr fun _ _ ↦ decide_not.symm
  rw [hnot] at hsplit
  exact hsplit.symm.trans (hrun.append_right _)

section Swap

variable {run : List Manifest} {key : Text} {encoded : EncodedChunk} {id : ℕ} {now : ℤ}

def KeyFree (w : World) (key : Text) : Prop :=
  ∀ row ∈ w.manifests.rows, row.storageKey = key → row.live = false ∧ row.indexed = false

theorem KeyFree.live (h : KeyFree w key) : ∀ m ∈ w.manifests.liveRows, m.storageKey ≠ key := by
  intro m hm hkey
  obtain ⟨hrow, hlive⟩ := mem_filter.mp hm
  rw [(h m hrow hkey).1] at hlive
  cases hlive

structure Merged (w : World) (key : Text) (encoded : EncodedChunk) (id : ℕ) (w' : World) :
    Prop where
  joined : ∃ seq, Joined w ((chunkMeta id key encoded).row seq) w'
  fresh : id ∉ w.manifests.rows.map Manifest.id
  object : w'.objects.lookup key = some encoded.bytes

section

variable (h : Merged w key encoded id w')
include h

theorem Merged.advances : Advances c run w w' := by
  obtain ⟨seq, hjoined⟩ := h.joined
  exact hjoined.advances run

theorem Merged.undo (now : ℤ) :
    Kept w { w' with manifests := w'.manifests.markDeleted now [id] } := by
  obtain ⟨seq, hjoined⟩ := h.joined
  refine ⟨?_, hjoined.objects⟩
  have hold : (w.manifests.liveRows.filter fun m ↦ decide (m.id ∉ [id])) =
      w.manifests.liveRows := by
    apply filter_eq_self.mpr
    intro m hm
    have hne : m.id ≠ id := fun hid ↦ h.fresh (hid ▸ mem_map_of_mem (mem_of_mem_filter hm))
    simpa using hne
  rw [liveRows_markDeleted, hjoined.rows, filter_append, hold,
    filter_cons_of_neg (by simp [ChunkMeta.row, chunkMeta]), filter_nil, append_nil]

theorem Merged.replace (now : ℤ) (hrun : RunOf w run)
    (hlines : ∀ seq, (linesOf c w'.objects ((chunkMeta id key encoded).row seq)).Perm
      (run.flatMap (linesOf c w.objects))) :
    Advances c run w
      { w' with manifests := w'.manifests.markDeleted now (run.map Manifest.id) } := by
  obtain ⟨seq, hjoined⟩ := h.joined
  have hnew : id ∉ run.map Manifest.id := by
    intro hid
    obtain ⟨m, hm, rfl⟩ := mem_map.mp hid
    exact h.fresh (mem_map_of_mem (mem_of_mem_filter (hrun.live m hm)))
  have hrows : (w'.manifests.markDeleted now (run.map Manifest.id)).liveRows =
      (w.manifests.liveRows.filter fun m ↦ m.id ∉ run.map Manifest.id) ++
        [(chunkMeta id key encoded).row seq] := by
    rw [liveRows_markDeleted, hjoined.rows, filter_append,
      filter_cons_of_pos (by simpa [ChunkMeta.row, chunkMeta] using hnew), filter_nil]
  refine ⟨?_, ?_⟩
  · have hrest : Same (w.manifests.liveRows.filter fun m ↦ m.id ∉ run.map Manifest.id)
        w.objects w'.objects := fun m hm ↦ hjoined.objects m (mem_of_mem_filter hm)
    have hsplit := hrun.split.flatMap_right (linesOf c w.objects)
    rw [flatMap_append] at hsplit
    rw [visible, visible, hrows, flatMap_append, flatMap_singleton, linesOf_congr hrest]
    apply List.Perm.subperm
    exact hsplit.trans (perm_append_comm.trans ((hlines seq).symm.append_left _))
  · intro m hm hid
    rw [hrows]
    exact mem_append_left _ (mem_filter.mpr ⟨hm, by simpa using hid⟩)

end

theorem ends_abandon (hkey : KeyFree w key) (h : Merged w key encoded id w')
    (e : LogAggregatorError) {Q : Unit → World → Prop} :
    Ends (abandon now id key e w' fates) Q (Advances c run w) := by
  have hundo := h.undo now
  have hgone := hundo.trans (kept_hardDelete [id])
  have hlive := hkey.live
  rw [← hgone.rows] at hlive
  apply ends_bind
  refine ends_alter (fun fates' _ ↦ ?_) (hundo.advances run) h.advances
  apply ends_bind
  refine ends_alter (fun fates'' _ ↦ ?_) (hgone.advances run) (hundo.advances run)
  apply ends_bind
  refine (ends_deleteObject hlive).mono ?_ fun _ hk ↦ (hgone.trans hk).advances run
  exact fun _ _ hk _ _ ↦ ends_fail ((hgone.trans hk).advances run)

theorem ends_indexMerged (hkey : KeyFree w key) (h : Merged w key encoded id w') :
    Ends (indexMerged c now id key w' fates) (fun _ ↦ Merged w key encoded id)
      (Advances c run w) := by
  have hfailed : (∀ e : LogAggregatorError, w' = w') ∧ Advances c run w w' :=
    ⟨fun _ ↦ rfl, h.advances⟩
  have hcall : Ends (Prog.attempt indexChunk w' fates) (fun _ s ↦ s = w') (Advances c run w) :=
    ends_attempt (ends_update ⟨rfl, h.advances⟩ hfailed hfailed)
  refine hcall.bind ?_
  rintro answer s fates' rfl
  cases answer with
  | error e => exact ends_abandon hkey h e
  | ok u =>
    split
    · exact ends_query h h.advances
    · exact h

theorem ends_swap (hrun : RunOf w run) (hkey : KeyFree w key)
    (hlines : ∀ objects id seq, objects.lookup key = some encoded.bytes →
      (linesOf c objects ((chunkMeta id key encoded).row seq)).Perm
        (run.flatMap (linesOf c w.objects))) :
    Leaves (swap c now run key encoded w fates) (Advances c run w) := by
  have hwritten := kept_write hkey.live encoded.bytes
  apply ends_bind
  refine ends_update (fun fates₁ _ ↦ ?_) (hwritten.advances run) ((Kept.refl w).advances run)
  apply ends_bind
  intro fates₂ _
  apply ends_bind
  refine ends_onManifests ?_ (hwritten.advances run)
  intro seq t ht
  have hmerged : Merged w key encoded (c.newV4 { w with
      objects := writeObject w.objects key encoded.bytes })
      { manifests := t, objects := writeObject w.objects key encoded.bytes } := by
    rcases insert_cases ht with ⟨-, row, hrow, hindexed, hsame⟩ | ⟨hrows, hid⟩
    · rw [(hkey row hrow hsame).2] at hindexed
      cases hindexed
    · exact ⟨⟨_, hrows, hwritten.objects⟩, hid, by rw [lookup_writeObject, if_pos rfl]⟩
  refine ⟨fun fates₃ _ ↦ ?_, hmerged.advances⟩
  refine (ends_indexMerged hkey hmerged).bind ?_
  intro _ w₂ fates₄ hw₂
  have hreplaced := hw₂.replace now hrun fun seq ↦ hlines _ _ seq hw₂.object
  exact ends_alter hreplaced hreplaced hw₂.advances

end Swap

section Merge

variable {run : List Manifest} {now : ℤ} {lines : List (DecodedLine J)}

def runLines (c : CompactorService J) (objects : Objects) (run : List Manifest) :
    List (DecodedLine J) := run.flatMap (decodedOf c objects)

/-- Before a run is merged: the key of its first chunk's labels and its earliest line is free, and
its lines are within the limits of the format. -/
@[mk_iff]
structure Free (c : CompactorService J) (run : List Manifest) (w : World) : Prop where
  key : ∀ first ∈ run.head?, ∀ l ∈ runLines c w.objects run,
    (∀ l' ∈ runLines c w.objects run, l.ts ≤ l'.ts) →
      KeyFree w (compactedKey c.platform.calendar first.labels.toChunkIdentity l.ts)
  limits : ∀ first ∈ run.head?, runLines c w.objects run ≠ [] →
    Mergeable c first.labels.toChunkIdentity
      (mergedLines first.labels.toChunkIdentity (runLines c w.objects run))

theorem ends_readRun (hR : R w) (run : List Manifest) :
    Ends (readRun c run w fates) (fun lines s ↦ lines = runLines c w.objects run ∧ s = w) R := by
  induction run generalizing fates with
  | nil => exact ⟨rfl, rfl⟩
  | cons m run ih =>
    apply ends_bind
    refine ends_readStorage ?_ hR
    intro lines hlines fates' _
    refine ih.bind ?_
    rintro more s fates'' ⟨rfl, rfl⟩
    refine ⟨?_, rfl⟩
    have hm : decodedOf c s.objects m = lines := by rw [decodedOf, hlines]
    rw [runLines, runLines, flatMap_cons, hm]

theorem mergedLines_ne_nil (identity : ChunkIdentity) (h : lines ≠ []) :
    mergedLines identity lines ≠ [] := by
  intro hnil
  have hlen := congrArg List.length hnil
  rw [mergedLines, length_map, length_insertionSort] at hlen
  exact h (eq_nil_of_length_eq_zero hlen)

theorem startedAt_merged (identity : ChunkIdentity) (h : lines ≠ []) :
    ∃ l ∈ lines, (∀ l' ∈ lines, l.ts ≤ l'.ts) ∧
      (labelsOf identity (mergedLines identity lines)).startedAt = l.ts := by
  obtain ⟨first, -, hfirst, -, ⟨⟨line, hline, rfl⟩, hleast⟩, -⟩ :=
    Summary.ends_statsOf (mergedLines_ne_nil identity h)
  have hmem : ∀ {line}, line ∈ mergedLines identity lines ↔
      ∃ l ∈ lines, toLogLine identity l = line := by
    intro line
    rw [mergedLines, mem_map]
    simp only [mem_insertionSort]
  obtain ⟨l, hl, rfl⟩ := hmem.mp hline
  refine ⟨l, hl, fun l' hl' ↦ hleast ⟨_, hmem.mpr ⟨l', hl', rfl⟩, rfl⟩, ?_⟩
  rw [labelsOf, hfirst]
  rfl

theorem lines_merged {identity : ChunkIdentity} :
    (((mergedLines identity lines).zipIdx.map lineAt).map (lineOf identity.containerId)).Perm
      (lines.map (lineOf identity.containerId)) := by
  have hpos : ((mergedLines identity lines).zipIdx.map lineAt).map (lineOf identity.containerId) =
      (lines.insertionSort fun l l' ↦ l.ts ≤ l'.ts).map (lineOf identity.containerId) := by
    have hline : lineOf identity.containerId ∘ lineAt =
        (fun line : LogLine J ↦ (⟨identity.containerId, line.ts, line.level, line.stream, line.msg,
          line.fields⟩ : Line J)) ∘ Prod.fst := rfl
    rw [map_map, hline, ← map_map, zipIdx_map_fst, mergedLines, map_map]
    rfl
  rw [hpos]
  exact (perm_insertionSort _ _).map _

theorem ends_mergeRun (hrun : RunOf w run) {containerId : String}
    (hcontainer : ∀ m ∈ run, m.labels.containerId = containerId) (hfree : Free c run w) :
    Leaves (mergeRun c now run w fates) (Advances c run w) := by
  have hsame := (Kept.refl w).advances (c := c) run
  cases run with
  | nil => exact hsame
  | cons first rest =>
    refine (ends_readRun hsame (first :: rest)).bind ?_
    rintro lines s fates' ⟨hlines, rfl⟩
    cases lines with
    | nil => exact hsame
    | cons line lines =>
      have hne : runLines c s.objects (first :: rest) ≠ [] := by
        rw [← hlines]
        exact cons_ne_nil _ _
      have hlimits := hfree.limits first rfl hne
      obtain ⟨l, hl, hleast, hstart⟩ := startedAt_merged first.labels.toChunkIdentity hne
      have hkey := hfree.key first rfl l hl hleast
      rw [mergeRead, hlines]
      apply ends_bind
      refine ends_lift ?_ hsame
      intro encoded hencoded fates'' _
      have hfooter := hlimits.footer
      have hlabels : encoded.footer.labels = labelsOf first.labels.toChunkIdentity
          (mergedLines first.labels.toChunkIdentity (runLines c s.objects (first :: rest))) := by
        have heq := hencoded
        rw [encodeLines_eq hlimits.storable (by omega)] at heq
        rw [← Except.ok.inj heq]
        rfl
      rw [hlabels, hstart]
      apply ends_swap hrun hkey
      intro objects id seq hobject
      rw [linesOf, decodedOf, readAllLines_encoded hlimits hencoded hobject]
      have hid : ((chunkMeta id (compactedKey c.platform.calendar first.labels.toChunkIdentity l.ts)
          encoded).row seq).labels.containerId = first.labels.containerId := by
        change encoded.footer.labels.containerId = _
        rw [hlabels]
        rfl
      rw [hid]
      refine lines_merged.trans (List.Perm.of_eq ?_)
      rw [runLines, map_flatMap]
      apply flatMap_congr
      intro m hm
      have hm' := (hcontainer m hm).trans (hcontainer first mem_cons_self).symm
      rw [linesOf, hm']

end Merge

def Grows (c : CompactorService J) (w w' : World) : Prop :=
  (visible c w).Subperm (visible c w')

theorem Kept.grows (h : Kept w w') : Grows c w w' := (h.advances []).visible

theorem Grows.trans (h : Grows c w w') (h' : Grows c w' w'') : Grows c w w'' :=
  List.Subperm.trans h h'

theorem Grows.refl (w : World) : Grows c w w := List.Subperm.refl _

theorem Grows.ends {α : Type} {r : Result World LogAggregatorError α} (h : Grows c w w')
    (hr : Leaves r (Grows c w')) : Leaves r (Grows c w) :=
  hr.mono (fun _ _ hs ↦ h.trans hs) fun _ hs ↦ h.trans hs

section Compact

variable {now start stop : ℤ} {containerId : String} {rs : List (List Manifest)}

/-- Every run that is merged for the container is free when its turn comes. -/
def ContainerFree (c : CompactorService J) (now start stop : ℤ) (containerId : String) :
    World → List Fate → Prop :=
  After (windowRuns c containerId start stop)
    (Before (fun run w _ ↦ Free c run w) (mergeRun c now))

def WindowFree (c : CompactorService J) (now start stop : ℤ) : World → List Fate → Prop :=
  After (windowContainers c start stop)
    (Before (ContainerFree c now start stop) (compactNext c now start stop))

/-- The runs still to merge are made of live rows of the container, each in one run. -/
structure Pending (containerId : String) (rs : List (List Manifest)) (w : World) : Prop where
  nodup : rs.flatten.Nodup
  live : ∀ run ∈ rs, ∀ m ∈ run, m ∈ w.manifests.liveRows
  container : ∀ run ∈ rs, ∀ m ∈ run, m.labels.containerId = containerId

theorem Pending.head (h : Pending containerId (run :: rs) w) : RunOf w run := by
  have hnodup := h.nodup
  exact ⟨hnodup.of_append_left, h.live run mem_cons_self⟩

theorem Pending.tail (h : Pending containerId (run :: rs) w) (hstep : Advances c run w w') :
    Pending containerId rs w' := by
  have hnodup := h.nodup
  rw [flatten_cons, nodup_append] at hnodup
  refine ⟨hnodup.2.1, ?_, fun r hr ↦ h.container r (mem_cons_of_mem _ hr)⟩
  intro r hr m hm
  have hlive := h.live r (mem_cons_of_mem _ hr) m hm
  apply hstep.others m hlive
  intro hid
  obtain ⟨m', hm', heq⟩ := mem_map.mp hid
  have hrow' := mem_of_mem_filter (h.live run mem_cons_self m' hm')
  have hsame := id_injective hrow' (mem_of_mem_filter hlive) heq
  exact hnodup.2.2 m' hm' m (mem_flatten.mpr ⟨r, hr, hm⟩) hsame

theorem pending_runs (scan : ScanOrder) (w : World) (containerId : String) (start stop : ℤ) :
    Pending containerId (runs (w.manifests.forContainerWindow scan containerId start stop)) w := by
  have hsub : (runs (w.manifests.forContainerWindow scan containerId start stop)).flatten.Sublist
      (w.manifests.forContainerWindow scan containerId start stop) := by
    have h := (filter_sublist (p := fun run : List Manifest ↦ decide (2 ≤ run.length))
      (l := runScale.segments (fun bytes m ↦ maxCompactedBytes < bytes + estimatedRawBytes m)
        (w.manifests.forContainerWindow scan containerId start stop))).flatten
    rwa [Greedy.Scale.flatten_segments] at h
  have hmem : ∀ run ∈ runs (w.manifests.forContainerWindow scan containerId start stop), ∀ m ∈ run,
      m ∈ w.manifests.liveRows ∧ m.labels.containerId = containerId := by
    intro run hrun m hm
    exact Table.mem_forContainerWindow (hsub.subset (mem_flatten.mpr ⟨run, hrun, hm⟩))
  exact ⟨(w.manifests.nodup_forContainerWindow scan containerId start stop).sublist hsub,
    fun run hrun m hm ↦ (hmem run hrun m hm).1, fun run hrun m hm ↦ (hmem run hrun m hm).2⟩

theorem pending_windowRuns (hR : R w) :
    Ends (windowRuns c containerId start stop w fates)
      (fun rs s ↦ s = w ∧ Pending containerId rs w) R := by
  refine ends_query ⟨rfl, ?_⟩ hR
  dsimp only
  split
  · exact ⟨nodup_nil, fun _ h ↦ (nomatch h), fun _ h ↦ (nomatch h)⟩
  · exact pending_runs c.scan w containerId start stop

theorem ends_compactContainer (hfree : ContainerFree c now start stop containerId w fates) :
    Leaves (compactContainer c now start stop containerId w fates) (Grows c w) := by
  apply ends_bind
  refine (pending_windowRuns (Grows.refl w)).mono ?_ fun _ h ↦ h
  rintro rs s ⟨rfl, hpending⟩ fates' hran
  rw [ContainerFree, After, hran] at hfree
  have hloop := ends_forEach (R := Grows c s)
    (fun rs s' ↦ Grows c s s' ∧ Pending containerId rs s') ?_ hfree ⟨Grows.refl s, hpending⟩
  · exact hloop.mono (fun _ _ h ↦ h.1) fun _ h ↦ h
  · rintro run rs s' fates'' ⟨hgrown, hp⟩ hrunFree
    have hcontainer := hp.container run mem_cons_self
    refine (ends_mergeRun hp.head hcontainer hrunFree).mono ?_ ?_
    · intro _ s'' hstep
      exact ⟨hgrown.trans hstep.visible, hp.tail hstep⟩
    · intro s'' hstep
      exact hgrown.trans hstep.visible

theorem ends_compactWindow (hfree : WindowFree c now start stop w fates) :
    Leaves (compactWindow c now start stop w fates) (Grows c w) := by
  have hlist : Ends (windowContainers c start stop w fates) (fun _ s ↦ s = w) (Grows c w) := by
    apply ends_bind
    exact ends_attempt_query (fun _ _ ↦ rfl) (fun _ _ _ ↦ rfl) (Grows.refl w)
  apply ends_bind
  refine hlist.mono ?_ fun _ h ↦ h
  rintro containers s rfl fates' hran
  rw [WindowFree, After, hran] at hfree
  refine ends_forEach (fun _ ↦ Grows c s) ?_ hfree (Grows.refl s)
  intro id _ s' fates'' hgrown hid
  exact (hgrown.ends (ends_compactContainer hid)).attempt.bind fun _ _ _ h ↦ h

end Compact

section Gc

variable {now : ℤ}

theorem ends_gcObjects {groups : List (Text × List ℕ)}
    (h : ∀ group ∈ groups, ∀ m ∈ w.manifests.liveRows, m.storageKey ≠ group.1) :
    Leaves (gcObjects groups w fates) (Kept w) := by
  induction groups generalizing w fates with
  | nil => exact Kept.refl w
  | cons group groups ih =>
    rw [forall_mem_cons] at h
    refine (ends_deleteObject h.1).bind ?_
    intro deleted s fates' hkept
    have hrest := h.2
    rw [← hkept.rows] at hrest
    apply ends_bind
    refine (ih hrest).mono ?_ fun _ hk ↦ hkept.trans hk
    intro more s' hk fates'' _
    exact hkept.trans hk

theorem ends_gcOnce : Leaves (gcOnce now w fates) (Kept w) := by
  apply ends_bind
  refine ends_attempt_query ?_ ?_ (Kept.refl w)
  · intro fates' _
    have hgroups : ∀ group ∈ groupByKey (w.manifests.tombstonedBefore (now - gcGrace) gcBatch),
        ∀ m ∈ w.manifests.liveRows, m.storageKey ≠ group.1 := by
      intro group hgroup m hm
      obtain ⟨key, hkey, rfl⟩ := mem_map.mp hgroup
      obtain ⟨row, hrow, rfl⟩ := mem_map.mp (mem_dedup.mp hkey)
      exact Table.not_live_of_tombstonedBefore hrow hm
    refine (ends_gcObjects hgroups).bind ?_
    intro gone s fates'' hs
    have hdone := hs.trans (kept_hardDelete gone)
    have hcall : Leaves (hardDelete gone s fates'') (Kept w) :=
      ends_alter hdone hdone hs
    exact hcall.attempt.bind fun _ _ _ h ↦ h
  · intro e fates' _
    exact Kept.refl w

end Gc

variable {now : ℤ}

theorem grows_insert {m : ChunkMeta} {seq : ℕ} {t : Table}
    (h : w.manifests.insert m = .ok (seq, t)) : Grows c w { w with manifests := t } := by
  rcases insert_cases h with ⟨hrows, -⟩ | ⟨hrows, -⟩
  · exact Kept.grows ⟨hrows, fun _ _ ↦ rfl⟩
  · have hjoined : Joined w (m.row w.manifests.nextSeq) { w with manifests := t } :=
      ⟨hrows, fun _ _ ↦ rfl⟩
    exact (hjoined.advances []).visible

theorem ends_insertManifest (m : ChunkMeta) : Leaves (insertManifest m w fates) (Grows c w) := by
  refine ends_onManifests ?_ (Grows.refl w)
  intro seq t ht
  exact ⟨grows_insert ht, grows_insert ht⟩

theorem ends_adopt (key : Text) : Leaves (adopt c key w fates) (Grows c w) := by
  apply ends_bind
  refine ends_readStorage ?_ (Grows.refl w)
  intro bytes _ fates' _
  apply ends_bind
  refine ends_lift ?_ (Grows.refl w)
  intro footer _ fates'' _
  apply ends_bind
  intro fates₁ _
  exact (ends_insertManifest _).bind fun _ _ _ hs ↦ hs

theorem ends_adoptAll : Leaves (adoptAll c w fates) (Grows c w) := by
  have hnext : ∀ key s fates, Grows c w s →
      Leaves (adoptNext c key s fates) (Grows c w) := by
    intro key s fates hs
    exact (hs.ends (ends_adopt key)).attempt.bind fun _ _ _ h ↦ h
  have hbatch : ∀ batch s fates, Grows c w s →
      Leaves (adoptBatch c batch s fates) (Grows c w) := by
    intro batch s fates hs
    apply ends_bind
    refine ends_attempt_query ?_ ?_ hs
    · intro fates' _
      exact ends_forEach_keeps hnext _ hs
    · intro e fates' _
      exact hs
  apply ends_bind
  apply ends_attempt
  refine ends_readStorage ?_ ⟨fun _ _ _ ↦ Grows.refl w, Grows.refl w⟩
  intro keys _
  refine ⟨fun fates' _ ↦ ?_, Grows.refl w⟩
  exact ends_forEach_keeps hbatch _ (Grows.refl w)

theorem ends_missingOf (hR : R w) (page : List Manifest) :
    Ends (missingOf page w fates) (fun ids s ↦
      s = w ∧ ∀ id ∈ ids, ∃ m ∈ page, m.id = id ∧ w.objects.lookup m.storageKey = none) R := by
  induction page generalizing fates with
  | nil => exact ⟨rfl, fun _ h ↦ (nomatch h)⟩
  | cons m page ih =>
    have hexists : Ends (Prog.attempt (chunkExists m.storageKey) w fates)
        (fun found s ↦ s = w ∧ (found = .ok false → w.objects.lookup m.storageKey = none)) R := by
      apply ends_attempt
      refine ends_readStorage ?_ ⟨fun _ ↦ ⟨rfl, fun h ↦ (nomatch h)⟩, hR⟩
      intro found hfound
      refine ⟨⟨rfl, fun h ↦ ?_⟩, hR⟩
      rw [← Except.ok.inj hfound, Except.ok.injEq, Option.isSome_eq_false_iff,
        Option.isNone_iff_eq_none] at h
      exact h
    refine hexists.bind ?_
    rintro found s fates' ⟨rfl, hfound⟩
    refine ih.bind ?_
    rintro more s' fates'' ⟨rfl, hmore⟩
    refine ⟨rfl, fun id hid ↦ ?_⟩
    rcases mem_append.mp hid with hhead | htail
    · split at hhead
      · rw [mem_singleton.mp hhead]
        exact ⟨m, mem_cons_self, rfl, hfound rfl⟩
      · cases hhead
    · obtain ⟨m', hm', h⟩ := hmore id htail
      exact ⟨m', mem_cons_of_mem _ hm', h⟩

theorem grows_missing (now : ℤ) {ids : List ℕ} {page : List Manifest}
    (hpage : ∀ m ∈ page, m ∈ w.manifests.liveRows)
    (hids : ∀ id ∈ ids, ∃ m ∈ page, m.id = id ∧ w.objects.lookup m.storageKey = none) :
    Grows c w { w with manifests := w.manifests.markDeleted now ids } := by
  rw [Grows, visible, visible, liveRows_markDeleted, Lib.Absorb.flatMap_filter_of_nil]
  intro m hm hp
  have hid : m.id ∈ ids := by simpa using hp
  obtain ⟨m', hm', heq, hnone⟩ := hids _ hid
  have hrow' := mem_of_mem_filter (hpage m' hm')
  rw [id_injective hrow' (mem_of_mem_filter hm) heq] at hnone
  exact linesOf_missing hnone

theorem mem_liveAfterSeq {t : Table} {after limit : ℕ} (h : m ∈ t.liveAfterSeq after limit) :
    m ∈ t.liveRows := by
  have hsort := mem_of_mem_take h
  rw [mem_insertionSort] at hsort
  exact mem_of_mem_filter hsort

theorem ends_sweep (fuel after : ℕ) : Leaves (sweep now fuel after w fates) (Grows c w) := by
  induction fuel generalizing after w fates with
  | zero => exact Grows.refl w
  | succ fuel ih =>
    apply ends_bind
    refine ends_attempt_query ?_ (fun _ _ _ ↦ Grows.refl w) (Grows.refl w)
    intro fates' _
    have hpage : ∀ m ∈ w.manifests.liveAfterSeq after 500, m ∈ w.manifests.liveRows :=
      fun m hm ↦ mem_liveAfterSeq hm
    generalize w.manifests.liveAfterSeq after 500 = page at hpage
    cases page with
    | nil => exact Grows.refl w
    | cons m rest =>
      refine (ends_missingOf (Grows.refl w) (m :: rest)).bind ?_
      rintro ids s fates₁ ⟨rfl, hids⟩
      have hgrown := grows_missing (c := c) now hpage hids
      have hmark : Leaves (markDeleted now ids s fates₁) (Grows c s) :=
        ends_alter hgrown hgrown (Grows.refl s)
      exact hmark.attempt.bind fun _ s' fates₂ hs' ↦ hs'.ends (ih _)

theorem ends_reconcileOnce : Leaves (reconcileOnce c now w fates) (Grows c w) :=
  ends_adoptAll.bind fun _ _ _ hs ↦ hs.ends (ends_sweep _ _)

end Temps.LogAggregator.Services.Compactor
