import Mathlib.Data.List.Chain
import Temps.Lib.Machine
import Temps.LogAggregator.Services.CompactorSafety

namespace Temps.LogAggregator.Services.Compactor

open Lib Lib.Faults Chunk Chunk.ChunkRoundTrip Seal Store.ManifestRepo List LogAggregator.Types

variable {J : Type} {c : CompactorService J} {w : World} {fates : List Fate}

/-- One background pass or one seal, with the fates of its calls. -/
inductive Step (J : Type)
  | compactWindow (now start stop : ℤ) (fates : List Fate)
  | compactContainer (now start stop : ℤ) (containerId : String) (fates : List Fate)
  | gcOnce (now : ℤ) (fates : List Fate)
  | reconcileOnce (now : ℤ) (fates : List Fate)
  | sealChunk (identity : ChunkIdentity) (lines : List (LogLine J)) (withBloom : Bool)
      (recoveryIdentity : Option Text) (fates : List Fate)

def step (c : CompactorService J) (w : World) : Step J → World
  | .compactWindow now start stop fates => (compactWindow c now start stop w fates).state
  | .compactContainer now start stop id fates => (compactContainer c now start stop id w fates).state
  | .gcOnce now fates => (gcOnce now w fates).state
  | .reconcileOnce now fates => (reconcileOnce c now w fates).state
  | .sealChunk identity lines withBloom recoveryIdentity fates =>
    (sealChunk c identity lines withBloom recoveryIdentity w fates).state

/-- A merge finds its key free and its lines within the limits; a sealed chunk has a key of its
own. -/
def Allowed (c : CompactorService J) (w : World) : Step J → Prop
  | .compactWindow now start stop fates => WindowFree c now start stop w fates
  | .compactContainer now start stop id fates => ContainerFree c now start stop id w fates
  | .gcOnce _ _ => True
  | .reconcileOnce _ _ => True
  | .sealChunk identity lines withBloom recoveryIdentity _ =>
    ∀ sealed ∈ (encodeGeneration c.platform identity lines withBloom recoveryIdentity).toOption,
      ∀ row ∈ w.manifests.rows, row.storageKey ≠ sealed.1

def states (c : CompactorService J) (w : World) (steps : List (Step J)) : List World :=
  steps.scanl (step c) w

abbrev AllowedRun (c : CompactorService J) : World → List (Step J) → Prop :=
  Machine.Along (step c) (Allowed c)

theorem ends_sealChunk {identity : ChunkIdentity} {lines : List (LogLine J)} {withBloom : Bool}
    {recoveryIdentity : Option Text}
    (h : ∀ sealed ∈ (encodeGeneration c.platform identity lines withBloom
      recoveryIdentity).toOption, ∀ row ∈ w.manifests.rows, row.storageKey ≠ sealed.1) :
    Ends (sealChunk c identity lines withBloom recoveryIdentity w fates) (fun _ ↦ Grows c w)
      (Grows c w) := by
  apply ends_bind
  refine ends_lift ?_ (Grows.refl w)
  rintro ⟨key, encoded⟩ hencoded fates₁ -
  have hkey : ∀ m ∈ w.manifests.liveRows, m.storageKey ≠ key := by
    intro m hm
    rw [hencoded] at h
    exact h (key, encoded) rfl m (mem_of_mem_filter hm)
  have hwritten : Grows c w { w with objects := writeObject w.objects key encoded.bytes } :=
    (kept_write hkey encoded.bytes).grows
  apply ends_bind
  refine ends_update (fun fates₂ _ ↦ ?_) hwritten (Grows.refl w)
  apply ends_bind
  intro fates₃ _
  exact (hwritten.ends (ends_insertManifest _)).bind fun _ _ _ hs ↦ hs

theorem grows_step {s : Step J} (h : Allowed c w s) : Grows c w (step c w s) := by
  cases s with
  | compactWindow now start stop fates => exact (ends_compactWindow h).state
  | compactContainer now start stop id fates => exact (ends_compactContainer h).state
  | gcOnce now fates => exact (ends_gcOnce.mono (fun _ _ h ↦ h.grows) fun _ h ↦ h.grows).state
  | reconcileOnce now fates => exact ends_reconcileOnce.state
  | sealChunk identity lines withBloom recoveryIdentity fates => exact (ends_sealChunk h).state

/-- Whatever calls fail and wherever the process ends, no pass loses a visible line. -/
theorem compaction_keeps_lines (c : CompactorService J) (w : World) (steps : List (Step J))
    (h : AllowedRun c w steps) : (states c w steps).IsChain (Grows c) := by
  induction steps generalizing w with
  | nil => exact isChain_singleton w
  | cons s steps ih =>
    obtain ⟨hs, hsteps⟩ := h
    have hrest := ih (step c w s) hsteps
    have hfirst : (states c (step c w s) steps).head? = some (step c w s) := by
      cases steps <;> simp [states]
    rw [states, scanl_cons, ← states]
    rw [isChain_cons]
    refine ⟨?_, hrest⟩
    intro w' hw'
    rw [hfirst, Option.mem_some_iff] at hw'
    exact hw' ▸ grows_step hs

section Decidable

variable {identity : ChunkIdentity}

instance (lines : List (LogLine J)) : Decidable (InRange lines) :=
  inferInstanceAs (Decidable (∀ line ∈ lines, i64Min ≤ line.ts ∧ line.ts ≤ i64Max))

instance (codecs : Codecs J) (lines : List (LogLine J)) :
    Decidable (BlockRoundTrip.Narrow codecs lines) :=
  inferInstanceAs (Decidable (_ ∧ _))

instance (codecs : Codecs J) (lines : List (LogLine J)) : Decidable (Storable codecs lines) :=
  decidable_of_iff' _ (storable_iff codecs lines)

instance (lines : List (LogLine J)) : Decidable (Mergeable c identity lines) :=
  decidable_of_iff' _ (mergeable_iff c identity lines)

instance (key : Text) : Decidable (KeyFree w key) :=
  inferInstanceAs (Decidable (∀ row ∈ w.manifests.rows, _ → _))

instance (run : List Manifest) : Decidable (Free c run w) := decidable_of_iff' _ (free_iff c run w)

instance (now start stop : ℤ) (containerId : String) :
    Decidable (ContainerFree c now start stop containerId w fates) :=
  inferInstanceAs (Decidable (After _ _ _ _))

instance (now start stop : ℤ) : Decidable (WindowFree c now start stop w fates) :=
  inferInstanceAs (Decidable (After _ _ _ _))

instance (s : Step J) : Decidable (Allowed c w s) := by
  cases s <;> dsimp only [Allowed] <;> infer_instance

end Decidable

def plainService : CompactorService ℕ where
  platform := plainPlatform
  decodeV1 _ := .ok []
  newV4 w := w.manifests.nextSeq
  indexes := false
  scan := ⟨id, .refl⟩

def emptyWorld : World := ⟨⟨[], 1, List.nodup_nil⟩, []⟩

def sealAt (ts : ℤ) : Step ℕ := .sealChunk webIdentity [{ hello with ts := ts }] false none []

def fourSeals : List (Step ℕ) := [sealAt 1, sealAt 2, sealAt 3, sealAt 4]

def compactAll (fates : List Fate) : Step ℕ := .compactWindow 10000 0 5000 fates

theorem compaction_keeps_lines_four :
    (states plainService emptyWorld (fourSeals ++ [compactAll []])).IsChain (Grows plainService) ∧
      ((fourSeals ++ [compactAll []]).foldl (step plainService)
        emptyWorld).manifests.liveRows.length = 1 :=
  ⟨compaction_keeps_lines plainService emptyWorld _ (by decide +kernel), by decide +kernel⟩

def crashedWorld : World :=
  (fourSeals ++ [compactAll (List.replicate 9 .done ++ [.crash])]).foldl (step plainService)
    emptyWorld

/-- The next pass merges the sources with the merged chunk under the key of the latter: the insert
is absorbed and the row that holds every line is tombstoned with the rest. -/
theorem repeated_compaction_loses_lines :
    (∀ m ∈ crashedWorld.manifests.liveRows,
        (readAllLines plainService crashedWorld.objects m).toOption.isSome) ∧
      (visible plainService crashedWorld).length = 8 ∧
      visible plainService (step plainService crashedWorld (compactAll [])) = [] ∧
      ¬ Grows plainService crashedWorld (step plainService crashedWorld (compactAll [])) := by
  have hrun : (∀ m ∈ crashedWorld.manifests.liveRows,
        (readAllLines plainService crashedWorld.objects m).toOption.isSome) ∧
      (visible plainService crashedWorld).length = 8 ∧
      visible plainService (step plainService crashedWorld (compactAll [])) = [] := by
    decide +kernel
  obtain ⟨hall, hbefore, hafter⟩ := hrun
  refine ⟨hall, hbefore, hafter, fun hgrows ↦ ?_⟩
  have hle := hgrows.length_le
  rw [hbefore, hafter] at hle
  cases hle

end Temps.LogAggregator.Services.Compactor
