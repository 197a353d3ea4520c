import Mathlib.Data.List.Forall2
import Temps.LogAggregator.Chunk.BlockRoundTrip

namespace Temps.LogAggregator.Chunk.Summary

open LogAggregator.Types BlockRoundTrip List

variable {J : Type} {lines : List (LogLine J)} {line : LogLine J}

def maskOf (lines : List (LogLine J)) : ℕ :=
  lines.foldr (fun line mask ↦ levelBit line.level ||| mask) 0

def countOf (lines : List (LogLine J)) (i : Fin 5) : ℕ :=
  lines.countP fun line ↦ levelIndex line.level = i

def times (lines : List (LogLine J)) : Set ℤ := {t | ∃ line ∈ lines, line.ts = t}

/-- The exact count, level union, level counts and time bounds of a list of lines. -/
structure Summarizes (lines : List (LogLine J)) (lineCount levelMask : ℕ)
    (levelCounts : LevelCounts) (first last : ℤ) : Prop where
  lineCount : lineCount = lines.length
  levelMask : levelMask = maskOf lines
  levelCounts : ∀ i, levelCounts i = countOf lines i
  first : IsLeast (times lines) first
  last : IsGreatest (times lines) last

theorem maskOf_append (as bs : List (LogLine J)) : maskOf (as ++ bs) = maskOf as ||| maskOf bs := by
  induction as with
  | nil => simp [maskOf]
  | cons a as ih =>
    have h : maskOf (a :: as ++ bs) = levelBit a.level ||| maskOf (as ++ bs) := rfl
    rw [h, ih, ← Nat.or_assoc]
    rfl

theorem statsOf_append (lines : List (LogLine J)) (line : LogLine J) :
    statsOf (lines ++ [line]) = (statsOf lines).push line := by
  rw [statsOf, foldl_append]
  rfl

theorem levelMask_statsOf (lines : List (LogLine J)) :
    (statsOf lines).levelMask = maskOf lines := by
  induction lines using List.reverseRecOn with
  | nil => rfl
  | append_singleton lines line ih =>
    rw [statsOf_append, Stats.push, ih, maskOf_append]
    simp [maskOf]

theorem levelCounts_statsOf (lines : List (LogLine J)) (i : Fin 5) :
    (statsOf lines).levelCounts i = countOf lines i % 2 ^ 32 := by
  induction lines using List.reverseRecOn with
  | nil => rfl
  | append_singleton lines line ih =>
    rw [statsOf_append, Stats.push, countOf, countP_append, ← countOf]
    by_cases h : i = levelIndex line.level
    · subst h
      simp [ih]
    · simp [ih, h, Ne.symm h]

theorem times_append (lines : List (LogLine J)) (line : LogLine J) :
    times (lines ++ [line]) = insert line.ts (times lines) := by
  ext t
  simp only [times, mem_append, mem_singleton]
  constructor
  · rintro ⟨l, hl | rfl, rfl⟩
    · exact Or.inr ⟨l, hl, rfl⟩
    · exact Or.inl rfl
  · rintro (rfl | ⟨l, hl, rfl⟩)
    · exact ⟨line, Or.inr rfl, rfl⟩
    · exact ⟨l, Or.inl hl, rfl⟩

theorem ends_statsOf (h : lines ≠ []) :
    ∃ first last, (statsOf lines).minTs = some first ∧ (statsOf lines).maxTs = some last ∧
      IsLeast (times lines) first ∧ IsGreatest (times lines) last := by
  induction lines using List.reverseRecOn with
  | nil => exact absurd rfl h
  | append_singleton lines line ih =>
    rw [statsOf_append, times_append]
    by_cases hne : lines = []
    · subst hne
      refine ⟨line.ts, line.ts, rfl, rfl, ?_⟩
      simp [times]
    · obtain ⟨first, last, hfirst, hlast, hleast, hgreatest⟩ := ih hne
      refine ⟨min line.ts first, max line.ts last, ?_, ?_, hleast.insert _, hgreatest.insert _⟩
      all_goals
        simp only [Stats.push, hfirst, hlast]
        split <;> congr 1 <;> omega

theorem countOf_le (lines : List (LogLine J)) (i : Fin 5) : countOf lines i ≤ lines.length :=
  countP_le_length

theorem summarizes_statsOf (h : lines ≠ []) (hn : lines.length < 2 ^ 32) :
    ∃ first last, (statsOf lines).minTs = some first ∧ (statsOf lines).maxTs = some last ∧
      Summarizes lines (lines.length % 2 ^ 32) (statsOf lines).levelMask
        (statsOf lines).levelCounts first last := by
  obtain ⟨first, last, hfirst, hlast, hleast, hgreatest⟩ := ends_statsOf h
  refine ⟨first, last, hfirst, hlast, Nat.mod_eq_of_lt hn, levelMask_statsOf lines, ?_, hleast,
    hgreatest⟩
  intro i
  rw [levelCounts_statsOf]
  exact Nat.mod_eq_of_lt ((countOf_le lines i).trans_lt hn)

theorem testBit_levelBit (level level' : LogLevel) :
    (levelBit level).testBit (levelIndex level') = decide (level' = level) := by
  cases level <;> cases level' <;> rfl

theorem testBit_maskOf (h : line ∈ lines) : (maskOf lines).testBit (levelIndex line.level) := by
  induction lines with
  | nil => cases h
  | cons l lines ih =>
    have hcons : maskOf (l :: lines) = levelBit l.level ||| maskOf lines := rfl
    rw [hcons, Nat.testBit_or, testBit_levelBit]
    rcases mem_cons.mp h with rfl | hmem
    · simp
    · simp [ih hmem]

theorem statsOf_covers (h : line ∈ lines) :
    ∃ first last, (statsOf lines).minTs = some first ∧ (statsOf lines).maxTs = some last ∧
      first ≤ line.ts ∧ line.ts ≤ last ∧
        (statsOf lines).levelMask.testBit (levelIndex line.level) := by
  obtain ⟨first, last, hmin, hmax, hleast, hgreatest⟩ := ends_statsOf (ne_nil_of_mem h)
  refine ⟨first, last, hmin, hmax, hleast.2 ⟨line, h, rfl⟩, hgreatest.2 ⟨line, h, rfl⟩, ?_⟩
  rw [levelMask_statsOf]
  exact testBit_maskOf h

def SummarizesBlock (m : BlockMeta) (lines : List (LogLine J)) : Prop :=
  Summarizes lines m.lineCount m.levelMask m.levelCounts m.firstTs m.lastTs

def SummarizesChunk (labels : ChunkLabels) (lines : List (LogLine J)) : Prop :=
  Summarizes lines labels.lineCount labels.levelMask labels.levelCounts labels.startedAt
    labels.endedAt

/-- The labels of a chunk are what the summaries of its blocks add up to. -/
structure Combines (blocks : List BlockMeta) (labels : ChunkLabels) : Prop where
  lineCount : labels.lineCount = (blocks.map (·.lineCount)).sum
  levelMask : labels.levelMask = blocks.foldr (fun m mask ↦ m.levelMask ||| mask) 0
  levelCounts : ∀ i, labels.levelCounts i = (blocks.map (·.levelCounts i)).sum
  startedAt : IsLeast {t | ∃ m ∈ blocks, m.firstTs = t} labels.startedAt
  endedAt : IsGreatest {t | ∃ m ∈ blocks, m.lastTs = t} labels.endedAt

variable {ms : List BlockMeta} {bs : List (List (LogLine J))}

theorem exists_right {α β : Type} {R : α → β → Prop} {l : List α} {l' : List β}
    (h : List.Forall₂ R l l') {a : α} (ha : a ∈ l) : ∃ b ∈ l', R a b := by
  induction h with
  | nil => cases ha
  | cons hr _ ih =>
    rcases mem_cons.mp ha with rfl | ha
    · exact ⟨_, mem_cons_self, hr⟩
    · obtain ⟨b, hb, hr⟩ := ih ha
      exact ⟨b, mem_cons_of_mem _ hb, hr⟩

section

variable (h : List.Forall₂ SummarizesBlock ms bs)
include h

theorem sum_lineCount : (ms.map (·.lineCount)).sum = bs.flatten.length := by
  induction h with
  | nil => rfl
  | cons hr _ ih => rw [map_cons, sum_cons, ih, hr.lineCount, flatten_cons,
      length_append]

theorem union_levelMask : ms.foldr (fun m mask ↦ m.levelMask ||| mask) 0 = maskOf bs.flatten := by
  induction h with
  | nil => rfl
  | cons hr _ ih => rw [foldr_cons, ih, hr.levelMask, flatten_cons, maskOf_append]

theorem sum_levelCounts (i : Fin 5) : (ms.map (·.levelCounts i)).sum = countOf bs.flatten i := by
  induction h with
  | nil => rfl
  | cons hr _ ih => rw [map_cons, sum_cons, ih, hr.levelCounts, flatten_cons,
      countOf, countOf, countOf, countP_append]

end

theorem mem_times_flatten {b : List (LogLine J)} (hb : b ∈ bs) {t : ℤ} (ht : t ∈ times b) :
    t ∈ times bs.flatten := by
  obtain ⟨line, hline, rfl⟩ := ht
  exact ⟨line, mem_flatten.mpr ⟨b, hb, hline⟩, rfl⟩

theorem combines {labels : ChunkLabels} (h : List.Forall₂ SummarizesBlock ms bs)
    (hl : SummarizesChunk labels bs.flatten) : Combines ms labels := by
  refine ⟨?_, ?_, ?_, ⟨?_, ?_⟩, ⟨?_, ?_⟩⟩
  · rw [sum_lineCount h, hl.lineCount]
  · rw [union_levelMask h, hl.levelMask]
  · intro i
    rw [sum_levelCounts h, hl.levelCounts]
  · obtain ⟨line, hline, hts⟩ := hl.first.1
    obtain ⟨b, hb, hlb⟩ := mem_flatten.mp hline
    obtain ⟨m, hm, hr⟩ := exists_right h.flip hb
    refine ⟨m, hm, le_antisymm ?_ (hl.first.2 (mem_times_flatten hb hr.first.1))⟩
    exact (hr.first.2 ⟨line, hlb, rfl⟩).trans_eq hts
  · rintro t ⟨m, hm, rfl⟩
    obtain ⟨b, hb, hr⟩ := exists_right h hm
    exact hl.first.2 (mem_times_flatten hb hr.first.1)
  · obtain ⟨line, hline, hts⟩ := hl.last.1
    obtain ⟨b, hb, hlb⟩ := mem_flatten.mp hline
    obtain ⟨m, hm, hr⟩ := exists_right h.flip hb
    refine ⟨m, hm, le_antisymm (hl.last.2 (mem_times_flatten hb hr.last.1)) ?_⟩
    exact hts.ge.trans (hr.last.2 ⟨line, hlb, rfl⟩)
  · rintro t ⟨m, hm, rfl⟩
    obtain ⟨b, hb, hr⟩ := exists_right h hm
    exact hl.last.2 (mem_times_flatten hb hr.last.1)

end Temps.LogAggregator.Chunk.Summary
