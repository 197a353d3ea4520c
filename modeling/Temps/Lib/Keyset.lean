import Mathlib.Algebra.Order.Group.Multiset
import Mathlib.Tactic.Abel

namespace Temps.Lib.Keyset

open List

variable {α C K T : Type*} [LinearOrder K] [LinearOrder T]

section Pages

variable (key : α → K)

def Descends (lines : List α) : Prop := lines.Pairwise fun a b ↦ key b < key a

structure Splits (lines page rest : List α) : Prop where
  perm : (page ++ rest).Perm lines
  descends : Descends key page
  newer : ∀ a ∈ page, ∀ b ∈ rest, key b < key a

variable {key} {lines page rest more : List α}

theorem Splits.of_perm (h : Splits key lines page rest) {lines' : List α}
    (hperm : lines.Perm lines') : Splits key lines' page rest :=
  { h with perm := h.perm.trans hperm }

theorem Descends.last_le (h : Descends key page) {last : α} (hlast : page.getLast? = some last) :
    ∀ a ∈ page, key last ≤ key a := by
  obtain ⟨front, rfl⟩ := List.getLast?_eq_some_iff.mp hlast
  intro a ha
  rcases mem_append.mp ha with hfront | hself
  · exact ((pairwise_append.mp h).2.2 a hfront last (mem_singleton_self _)).le
  · exact (congrArg key (mem_singleton.mp hself)).ge

theorem Splits.filter_lt (h : Splits key lines page rest) {cut : K} (hpage : ∀ a ∈ page, cut ≤ key a)
    (hrest : ∀ b ∈ rest, key b < cut) : (lines.filter fun a ↦ key a < cut).Perm rest := by
  refine (h.perm.symm.filter _).trans ?_
  have hnone : page.filter (fun a ↦ key a < cut) = [] :=
    filter_eq_nil_iff.mpr fun a ha ↦ by simpa using hpage a ha
  have hall : rest.filter (fun a ↦ key a < cut) = rest :=
    filter_eq_self.mpr fun b hb ↦ by simpa using hrest b hb
  rw [filter_append, hnone, hall]
  rfl

theorem Splits.append (h : Splits key lines page rest) (hperm : more.Perm rest)
    (hdescends : Descends key more) : (page ++ more).Perm lines ∧ Descends key (page ++ more) := by
  refine ⟨(hperm.append_left page).trans h.perm, pairwise_append.mpr ?_⟩
  exact ⟨h.descends, hdescends, fun a ha b hb ↦ h.newer a ha b (hperm.subset hb)⟩

end Pages

variable (key : α → K) (time : K → T) (endedAt : C → T) (linesOf : C → List α) (limit : ℕ)

/-- The newest lines, as many as a page holds if any is left out. -/
structure Newest (lines top rest : List α) : Prop where
  perm : (top ++ rest).Perm lines
  full : rest ≠ [] → top.length = limit
  newer : ∀ a ∈ top, ∀ b ∈ rest, key b < key a

variable {key limit} in
theorem Newest.of_perm {lines top top' rest : List α} (h : Newest key limit lines top rest)
    (hperm : top'.Perm top) : Newest key limit lines top' rest where
  perm := (hperm.append_right rest).trans h.perm
  full hne := hperm.length_eq.trans (h.full hne)
  newer a ha := h.newer a (hperm.subset ha)

/-- A search over sources that end at known times: the lines of those that were read are on the
page, or wait for it, or were left out because the source has as many newer ones as a page holds. -/
structure Walked (lines : List α) (unread : List C) (pending finals rest : List α) : Prop where
  perm : (finals ++ pending ++ rest ++ unread.flatMap linesOf).Perm lines
  descends : Descends key finals
  newer : ∀ a ∈ finals, ∀ b ∈ pending, key b < key a
  final : ∀ a ∈ finals, ∀ c ∈ unread, endedAt c < time (key a)
  left : ∀ b ∈ rest, ∃ top : List α, top.Nodup ∧ top.length = limit ∧ top ⊆ finals ++ pending ∧
    ∀ a ∈ top, key b < key a

variable {key time endedAt linesOf limit} {lines pending finals rest : List α} {unread : List C}

theorem walked_start (sources : List C) :
    Walked key time endedAt linesOf limit (sources.flatMap linesOf) sources [] [] [] where
  perm := .refl _
  descends := .nil
  newer := nofun
  final := nofun
  left := nofun

theorem Walked.of_perm (h : Walked key time endedAt linesOf limit lines unread pending finals rest)
    {unread' : List C} (hperm : unread.Perm unread') :
    Walked key time endedAt linesOf limit lines unread' pending finals rest :=
  { h with
    perm := ((hperm.flatMap_right linesOf).symm.append_left _).trans h.perm
    final := fun a ha c hc ↦ h.final a ha c (hperm.symm.subset hc) }

namespace Walked

theorem read {sources : List C}
    (h : Walked key time endedAt linesOf limit lines (sources ++ unread) pending finals rest)
    (hmono : Monotone time) (hbound : ∀ c ∈ sources, ∀ a ∈ linesOf c, time (key a) ≤ endedAt c)
    (hnodup : lines.Nodup) {topOf restOf : C → List α}
    (hnewest : ∀ c ∈ sources, Newest key limit (linesOf c) (topOf c) (restOf c))
    {pending' : List α} (hpending : pending'.Perm (pending ++ sources.flatMap topOf)) :
    Walked key time endedAt linesOf limit lines unread pending' finals
      (rest ++ sources.flatMap restOf) := by
  have hlines : (sources.flatMap topOf ++ sources.flatMap restOf).Perm
      (sources.flatMap linesOf) :=
    (flatMap_append_perm ..).trans (.flatMap_left _ fun c hc ↦ (hnewest c hc).perm)
  have hperm : (finals ++ pending' ++ (rest ++ sources.flatMap restOf) ++
      unread.flatMap linesOf).Perm lines := by
    refine .trans ?_ h.perm
    have hp := Multiset.coe_eq_coe.mpr hpending
    have hl := Multiset.coe_eq_coe.mpr hlines
    rw [← Multiset.coe_eq_coe]
    simp only [flatMap_append, ← Multiset.coe_add] at hp hl ⊢
    rw [hp, ← hl]
    abel
  refine ⟨hperm, h.descends, ?_, fun a ha c hc ↦ h.final a ha c (mem_append_right _ hc), ?_⟩
  · intro a ha b hb
    rcases mem_append.mp (hpending.subset hb) with hold | hnew
    · exact h.newer a ha b hold
    · obtain ⟨c, hc, hbc⟩ := mem_flatMap.mp hnew
      have hbline : b ∈ linesOf c := (hnewest c hc).perm.subset (mem_append_left _ hbc)
      exact hmono.reflect_lt
        ((hbound c hc b hbline).trans_lt (h.final a ha c (mem_append_left _ hc)))
  · intro b hb
    rcases mem_append.mp hb with hold | hnew
    · obtain ⟨top, htop, hlen, hsub, hnewer⟩ := h.left b hold
      refine ⟨top, htop, hlen, fun a ha ↦ ?_, hnewer⟩
      rcases mem_append.mp (hsub ha) with hfinal | hpend
      · exact mem_append_left _ hfinal
      · exact mem_append_right _ (hpending.symm.subset (mem_append_left _ hpend))
    · obtain ⟨c, hc, hbc⟩ := mem_flatMap.mp hnew
      have htop : topOf c ⊆ pending' := fun a ha ↦
        hpending.symm.subset (mem_append_right _ (mem_flatMap.mpr ⟨c, hc, ha⟩))
      have hpend : pending'.Nodup := by
        refine List.Nodup.sublist ?_ (hperm.nodup_iff.mpr hnodup)
        simp only [append_assoc]
        exact (sublist_append_left ..).trans (sublist_append_right ..)
      have hcnodup : (topOf c).Nodup := by
        have hall := hpending.nodup_iff.mp hpend
        exact (nodup_flatMap.mp (nodup_append.mp hall).2.1).1 c hc
      exact ⟨topOf c, hcnodup, (hnewest c hc).full (ne_nil_of_mem hbc),
        fun a ha ↦ mem_append_right _ (htop ha), fun a ha ↦ (hnewest c hc).newer a ha b hbc⟩

theorem promote {moved : List α}
    (h : Walked key time endedAt linesOf limit lines unread (moved ++ pending) finals rest)
    (hdescends : Descends key (moved ++ pending))
    (hfinal : ∀ a ∈ moved, ∀ c ∈ unread, endedAt c < time (key a)) :
    Walked key time endedAt linesOf limit lines unread pending (finals ++ moved) rest := by
  obtain ⟨hmoved, -, hacross⟩ := pairwise_append.mp hdescends
  refine ⟨by simpa using h.perm, ?_,
    forall_mem_append.mpr ⟨fun a ha b hb ↦ h.newer a ha b (mem_append_right _ hb), hacross⟩,
    forall_mem_append.mpr ⟨h.final, hfinal⟩, ?_⟩
  · refine pairwise_append.mpr ⟨h.descends, hmoved, fun a ha b hb ↦ ?_⟩
    exact h.newer a ha b (mem_append_left _ hb)
  · intro b hb
    obtain ⟨top, htop, hlen, hsub, hnewer⟩ := h.left b hb
    exact ⟨top, htop, hlen, by rwa [append_assoc], hnewer⟩

section

variable (h : Walked key time endedAt linesOf limit lines unread pending finals rest)
  (hmono : Monotone time)
include h hmono

theorem splits_full (hbound : ∀ c ∈ unread, ∀ a ∈ linesOf c, time (key a) ≤ endedAt c)
    (hfull : finals.length = limit) :
    Splits key lines finals (pending ++ rest ++ unread.flatMap linesOf) := by
  refine ⟨by simpa using h.perm, h.descends, fun a ha b hb ↦ ?_⟩
  rcases mem_append.mp hb with hread | hunread
  · rcases mem_append.mp hread with hpending | hrest
    · exact h.newer a ha b hpending
    · obtain ⟨top, htop, hlen, hsub, hnewer⟩ := h.left b hrest
      by_contra hlt
      have hfinals : top ⊆ finals := fun x hx ↦ by
        refine (mem_append.mp (hsub hx)).resolve_right fun hpend ↦ ?_
        exact hlt ((hnewer x hx).trans (h.newer a ha x hpend))
      have hperm := (subperm_of_subset htop hfinals).perm_of_length_le (hfull.trans hlen.symm).le
      exact hlt (hnewer a (hperm.symm.subset ha))
  · obtain ⟨c, hc, hbc⟩ := mem_flatMap.mp hunread
    exact hmono.reflect_lt ((hbound c hc b hbc).trans_lt (h.final a ha c hc))

theorem left_le (hshort : finals.length < limit) {t : T}
    (hpending : ∀ b ∈ pending, time (key b) ≤ t) : ∀ b ∈ rest, time (key b) ≤ t := by
  intro b hb
  obtain ⟨top, htop, hlen, hsub, hnewer⟩ := h.left b hb
  by_contra hlt
  have hfinals : top ⊆ finals := fun x hx ↦ by
    refine (mem_append.mp (hsub hx)).resolve_right fun hpend ↦ ?_
    exact hlt ((hmono (hnewer x hx).le).trans (hpending x hpend))
  have hle := (subperm_of_subset htop hfinals).length_le
  omega

theorem splits_partial (hbound : ∀ c ∈ unread, ∀ a ∈ linesOf c, time (key a) ≤ endedAt c)
    (hshort : finals.length < limit) {t : T} (hunread : ∀ c ∈ unread, endedAt c ≤ t)
    (hpending : ∀ b ∈ pending, time (key b) ≤ t) (hfinals : ∀ a ∈ finals, t < time (key a)) :
    Splits key lines finals (pending ++ rest ++ unread.flatMap linesOf) ∧
      ∀ b ∈ pending ++ rest ++ unread.flatMap linesOf, time (key b) ≤ t := by
  have hle : ∀ b ∈ pending ++ rest ++ unread.flatMap linesOf, time (key b) ≤ t := by
    refine forall_mem_append.mpr ⟨forall_mem_append.mpr
      ⟨hpending, h.left_le hmono hshort hpending⟩, fun b hb ↦ ?_⟩
    obtain ⟨c, hc, hbc⟩ := mem_flatMap.mp hb
    exact (hbound c hc b hbc).trans (hunread c hc)
  refine ⟨⟨by simpa using h.perm, h.descends, fun a ha b hb ↦ ?_⟩, hle⟩
  exact hmono.reflect_lt ((hle b hb).trans_lt (hfinals a ha))

end

theorem splits_last (h : Walked key time endedAt linesOf limit lines [] [] finals rest)
    (hshort : finals.length < limit) : Splits key lines finals [] := by
  have hrest : rest = [] := by
    refine eq_nil_iff_forall_not_mem.mpr fun b hb ↦ ?_
    obtain ⟨top, htop, hlen, hsub, -⟩ := h.left b hb
    rw [append_nil] at hsub
    have hle := (subperm_of_subset htop hsub).length_le
    omega
  have hperm := h.perm
  rw [hrest] at hperm
  exact ⟨by simpa using hperm, h.descends, nofun⟩

end Walked

end Temps.Lib.Keyset
