import Mathlib.Data.List.Perm.Basic
import Mathlib.Data.List.Nodup
import Mathlib.Data.List.Flatten

namespace Temps.Lib.Absorb

open List

variable {κ ρ α : Type} [DecidableEq κ] {key : ρ → κ} {rows more : List ρ} {f : ρ → List α}
  {p : ρ → Bool}

def insert (key : ρ → κ) (rows : List ρ) (row : ρ) : List ρ :=
  if key row ∈ rows.map key then rows else rows ++ [row]

def insertAll (key : ρ → κ) (rows more : List ρ) : List ρ := more.foldl (insert key) rows

theorem subset_insert (rows : List ρ) (row : ρ) : rows ⊆ insert key rows row := by
  rw [insert]
  split
  · exact List.Subset.refl _
  · exact subset_append_left _ _

theorem forall_mem_insert {P : ρ → Prop} {row : ρ} (h : ∀ r ∈ rows, P r)
    (hrow : P row) : ∀ r ∈ insert key rows row, P r := by
  rw [insert]
  split
  · exact h
  · exact forall_mem_append.mpr ⟨h, forall_mem_singleton.mpr hrow⟩

theorem insertAll_eq (rows : List ρ) (h : (more.map key).Nodup) :
    insertAll key rows more = rows ++ more.filter fun row ↦ key row ∉ rows.map key := by
  induction more generalizing rows with
  | nil => simp [insertAll]
  | cons row more ih =>
    rw [map_cons, nodup_cons] at h
    have hrest := ih (insert key rows row) h.2
    rw [insertAll, foldl_cons, ← insertAll, hrest]
    by_cases hrow : key row ∈ rows.map key
    · rw [insert, if_pos hrow, filter_cons_of_neg (by simpa using hrow)]
    · have hsame : ∀ other ∈ more,
          decide (key other ∉ (rows ++ [row]).map key) = decide (key other ∉ rows.map key) := by
        intro other hother
        have hne : key other ≠ key row := by
          intro heq
          exact h.1 (heq ▸ mem_map_of_mem hother)
        simp [hne]
      rw [insert, if_neg hrow, filter_cons_of_pos (by simpa using hrow),
        filter_congr hsame, append_assoc, singleton_append]

theorem insertAll_nil (h : (rows.map key).Nodup) : insertAll key [] rows = rows := by
  rw [insertAll_eq [] h]
  simp

theorem flatMap_filter_of_nil {l : List ρ}
    (h : ∀ a ∈ l, p a = false → f a = []) : (l.filter p).flatMap f = l.flatMap f := by
  induction l with
  | nil => rfl
  | cons a l ih =>
    obtain ⟨ha, hl⟩ := forall_mem_cons.mp h
    rw [filter_cons, flatMap_cons]
    split
    · rw [flatMap_cons, ih hl]
    · rename_i hp
      rw [ih hl, ha (by simpa using hp), nil_append]

theorem forall_of_length_flatMap_filter (hne : ∀ r ∈ rows, f r ≠ [])
    (h : ((rows.filter p).flatMap f).length = (rows.flatMap f).length) : ∀ r ∈ rows, p r := by
  induction rows with
  | nil => simp
  | cons row rows ih =>
    rw [forall_mem_cons] at hne
    have hle := ((filter_sublist (p := p) (l := rows)).flatMap f).length_le
    have hpos := length_pos_iff.mpr hne.1
    cases hrow : p row with
    | false =>
      rw [filter_cons_of_neg (by simp [hrow]), flatMap_cons, length_append] at h
      omega
    | true =>
      rw [filter_cons_of_pos hrow, flatMap_cons, flatMap_cons, length_append, length_append] at h
      rw [forall_mem_cons]
      exact ⟨hrow, ih hne.2 (by omega)⟩

theorem flatMap_insertAll_perm_iff (f : ρ → List α)
    (hrows : (rows.map key).Nodup) (hmore : (more.map key).Nodup)
    (hkey : ∀ r ∈ rows, ∀ r' ∈ more, key r = key r' → r = r') (hne : ∀ r ∈ rows, f r ≠ []) :
    ((insertAll key rows more).flatMap f).Perm (more.flatMap f) ↔ ∀ r ∈ rows, r ∈ more := by
  classical
  rw [insertAll_eq rows hmore, flatMap_append]
  have hcommon : (more.filter fun r ↦ decide (key r ∈ rows.map key)).Perm
      (rows.filter fun r ↦ decide (r ∈ more)) := by
    rw [perm_ext_iff_of_nodup (hmore.of_map.filter _) (hrows.of_map.filter _)]
    intro r
    simp only [mem_filter, decide_eq_true_eq, mem_map]
    constructor
    · rintro ⟨hr, r', hr', heq⟩
      obtain rfl := hkey r' hr' r hr heq
      exact ⟨hr', hr⟩
    · rintro ⟨hr, hr'⟩
      exact ⟨hr', r, hr, rfl⟩
  have hnot : more.filter (fun r ↦ decide (key r ∉ rows.map key)) =
      more.filter fun r ↦ !decide (key r ∈ rows.map key) :=
    filter_congr fun _ _ ↦ decide_not
  have hsplit := (filter_append_perm (fun r ↦ decide (key r ∈ rows.map key)) more).symm
  have hmoref := hsplit.flatMap_right f
  rw [flatMap_append] at hmoref
  replace hmoref := hmoref.trans ((hcommon.flatMap_right f).append_right _)
  rw [hnot]
  constructor
  · intro hperm
    have hcut := (perm_append_right_iff _).mp (hperm.trans hmoref)
    have hall := forall_of_length_flatMap_filter hne hcut.length_eq.symm
    intro r hr
    simpa using hall r hr
  · intro hall
    have hself : rows.filter (fun r ↦ decide (r ∈ more)) = rows :=
      filter_eq_self.mpr fun r hr ↦ by simpa using hall r hr
    rw [hself] at hmoref
    exact hmoref.symm

end Temps.Lib.Absorb
