import Temps.Lib.Machine

namespace Temps.PtyAgent.Registry

open Lib.Machine Function Option

/-- Where the OPEN that spawned a tab stands: before its map insert, past it, or given up because
the terminal could not be cloned. -/
inductive Stage where
  | pending
  | live
  | abandoned
  deriving DecidableEq

/-- One generation of a tab: its child, and the reader task that ends with the child's output. -/
structure Tab where
  tabId : String
  stage : Stage
  killed : Bool
  exited : Bool
  eof : Bool
  finished : Bool
  deriving DecidableEq

def Tab.spawned (tabId : String) : Tab := ⟨tabId, .pending, false, false, false, false⟩

def Tab.running (tab : Tab) : Prop := tab.exited = false ∧ tab.killed = false

inductive Conn where
  | idle
  | opening (tabId : String)
  | inserting (t : ℕ)
  | attached (t : ℕ)
  | killing (t : ℕ)
  deriving DecidableEq

structure Tabs where
  inner : String → Option ℕ
  tabs : ℕ → Option Tab
  conns : ℕ → Conn

inductive Act where
  | get (c : ℕ) (tabId : String)
  | spawnPty (c t : ℕ)
  | spawnFail (c : ℕ)
  | cloneFail (c : ℕ)
  | insert (c : ℕ)
  | detach (c : ℕ)
  | killRemove (c : ℕ)
  | killTree (c : ℕ)
  | childExit (t : ℕ)
  | readerEof (t : ℕ)
  | readerRemove (t : ℕ)

namespace Tabs

def new : Tabs := ⟨fun _ ↦ none, fun _ ↦ none, fun _ ↦ .idle⟩

variable (s : Tabs)

def setConn (c : ℕ) (conn : Conn) : Tabs := { s with conns := Function.update s.conns c conn }

def setTab (t : ℕ) (tab : Tab) : Tabs := { s with tabs := Function.update s.tabs t (some tab) }

def remove (tabId : String) : Tabs := { s with inner := Function.update s.inner tabId none }

def getTab (c : ℕ) (tabId : String) : Tabs :=
  match s.inner tabId with
  | some t => s.setConn c (.attached t)
  | none => s.setConn c (.opening tabId)

def step : Act → Option Tabs
  | .get c tabId =>
    match s.conns c with
    | .idle | .attached _ => some (s.getTab c tabId)
    | _ => none
  | .spawnPty c t =>
    match s.conns c, s.tabs t with
    | .opening tabId, none => some ((s.setTab t (.spawned tabId)).setConn c (.inserting t))
    | _, _ => none
  | .spawnFail c =>
    match s.conns c with
    | .opening _ => some (s.setConn c .idle)
    | _ => none
  | .cloneFail c =>
    match s.conns c with
    | .inserting t =>
      (s.tabs t).map fun tab ↦ (s.setTab t { tab with stage := .abandoned }).setConn c .idle
    | _ => none
  | .insert c =>
    match s.conns c with
    | .inserting t =>
      (s.tabs t).map fun tab ↦
        { ((s.setTab t { tab with stage := .live }).setConn c (.attached t)) with
          inner := Function.update s.inner tab.tabId (some t) }
    | _ => none
  | .detach c =>
    match s.conns c with
    | .attached _ => some (s.setConn c .idle)
    | _ => none
  | .killRemove c =>
    match s.conns c with
    | .attached t =>
      (s.tabs t).map fun tab ↦
        ((s.remove tab.tabId).setTab t { tab with killed := true }).setConn c (.killing t)
    | _ => none
  | .killTree c =>
    match s.conns c with
    | .killing t =>
      (s.tabs t).map fun tab ↦ (s.setTab t { tab with exited := true }).setConn c .idle
    | _ => none
  | .childExit t => (s.tabs t).map fun tab ↦ s.setTab t { tab with exited := true }
  | .readerEof t =>
    match s.tabs t with
    | some tab => if tab.stage = .live then some (s.setTab t { tab with eof := true }) else none
    | none => none
  | .readerRemove t =>
    match s.tabs t with
    | some tab =>
      if tab.eof = true ∧ tab.finished = false then
        some ((s.remove tab.tabId).setTab t { tab with finished := true })
      else none
    | none => none

end Tabs

inductive Move (s : Tabs) : Act → Tabs → Prop
  | attach {c tabId t} (hinner : s.inner tabId = some t) :
    Move s (.get c tabId) (s.setConn c (.attached t))
  | start {c tabId} (hinner : s.inner tabId = none) :
    Move s (.get c tabId) (s.setConn c (.opening tabId))
  | spawnPty {c t tabId} (hconn : s.conns c = .opening tabId) (hfresh : s.tabs t = none) :
    Move s (.spawnPty c t) ((s.setTab t (.spawned tabId)).setConn c (.inserting t))
  | spawnFail {c} : Move s (.spawnFail c) (s.setConn c .idle)
  | cloneFail {c t tab} (hconn : s.conns c = .inserting t) (htab : s.tabs t = some tab) :
    Move s (.cloneFail c) ((s.setTab t { tab with stage := .abandoned }).setConn c .idle)
  | insert {c t tab} (hconn : s.conns c = .inserting t) (htab : s.tabs t = some tab) :
    Move s (.insert c)
      { ((s.setTab t { tab with stage := .live }).setConn c (.attached t)) with
        inner := Function.update s.inner tab.tabId (some t) }
  | detach {c} : Move s (.detach c) (s.setConn c .idle)
  | killRemove {c t tab} (hconn : s.conns c = .attached t) (htab : s.tabs t = some tab) :
    Move s (.killRemove c)
      (((s.remove tab.tabId).setTab t { tab with killed := true }).setConn c (.killing t))
  | killTree {c t tab} (hconn : s.conns c = .killing t) (htab : s.tabs t = some tab) :
    Move s (.killTree c) ((s.setTab t { tab with exited := true }).setConn c .idle)
  | childExit {t tab} (htab : s.tabs t = some tab) :
    Move s (.childExit t) (s.setTab t { tab with exited := true })
  | readerEof {t tab} (htab : s.tabs t = some tab) (hlive : tab.stage = .live) :
    Move s (.readerEof t) (s.setTab t { tab with eof := true })
  | readerRemove {t tab} (htab : s.tabs t = some tab) (heof : tab.eof = true) :
    Move s (.readerRemove t) ((s.remove tab.tabId).setTab t { tab with finished := true })

theorem getTab_move (s : Tabs) (c : ℕ) (tabId : String) :
    Move s (.get c tabId) (s.getTab c tabId) := by
  rw [Tabs.getTab]
  split
  case h_1 t hinner => exact .attach hinner
  case h_2 hinner => exact .start hinner

theorem step_move {s s' : Tabs} {a : Act} (h : s.step a = some s') : Move s a s' := by
  revert h
  fun_cases Tabs.step s a
  case case8 | case10 | case14 | case16 | case18 =>
    rw [map_eq_some_iff]
    rintro ⟨tab, htab, rfl⟩
    constructor <;> assumption
  all_goals rintro ⟨⟩
  case case1 | case2 => exact getTab_move s _ _
  case case4 htab hconn => exact .spawnPty hconn htab
  case case6 => exact .spawnFail
  case case12 => exact .detach
  case case19 tab htab hlive => exact .readerEof htab hlive
  case case22 tab htab hdone => exact .readerRemove htab hdone.1

/-- A child is spawned only under an id without a tab in the map, without another tab whose OPEN is
between spawn and insert, and without an abandoned child that still runs; a tab is removed by its id
only if no other tab is in the map under it; a reader ends after its child. -/
def Orderly (s : Tabs) : Act → Prop
  | .spawnPty c _ =>
    ∀ tabId, s.conns c = .opening tabId →
      s.inner tabId = none ∧
        ∀ t tab, s.tabs t = some tab → tab.tabId = tabId →
          tab.stage ≠ .pending ∧ (tab.stage = .abandoned → tab.exited = true)
  | .killRemove c =>
    ∀ t tab, s.conns c = .attached t → s.tabs t = some tab → ∀ u ∈ s.inner tab.tabId, u = t
  | .readerEof t => ∀ tab, s.tabs t = some tab → tab.exited = true
  | .readerRemove t => ∀ tab, s.tabs t = some tab → ∀ u ∈ s.inner tab.tabId, u = t
  | _ => True

structure Tracked (s : Tabs) : Prop where
  entry : ∀ t tab, s.tabs t = some tab → tab.stage = .live → tab.killed = false →
    tab.finished = false → s.inner tab.tabId = some t
  pending : ∀ t tab, s.tabs t = some tab → tab.stage = .pending → s.inner tab.tabId = none
  alone : ∀ t t' tab tab', s.tabs t = some tab → s.tabs t' = some tab' → tab.tabId = tab'.tabId →
    tab.stage = .pending → tab'.stage = .pending → t = t'
  single : ∀ t t' tab tab', s.tabs t = some tab → s.tabs t' = some tab' → tab.tabId = tab'.tabId →
    tab.running → tab'.running → t = t'
  ended : ∀ t tab, s.tabs t = some tab → tab.eof ∨ tab.finished → tab.exited
  inserting : ∀ c t, s.conns c = .inserting t → ∃ tab, s.tabs t = some tab ∧ tab.stage = .pending
  owner : ∀ c c' t, s.conns c = .inserting t → s.conns c' = .inserting t → c = c'

section Steps

variable {s s' : Tabs} {c t u : ℕ} {tab tab' : Tab} {conn : Conn}

theorem of_setConn {c' : ℕ} (hc : (s.setConn c conn).conns c' = .inserting u) :
    c' = c ∧ conn = .inserting u ∨ c' ≠ c ∧ s.conns c' = .inserting u := by
  simp only [Tabs.setConn, update_apply] at hc
  split at hc
  case isTrue heq => exact .inl ⟨heq, hc⟩
  case isFalse hne => exact .inr ⟨hne, hc⟩

theorem of_setTab {v : Tab} (hu : (s.setTab t tab').tabs u = some v) :
    u = t ∧ v = tab' ∨ u ≠ t ∧ s.tabs u = some v := by
  simp only [Tabs.setTab, update_apply] at hu
  split at hu
  case isTrue heq => exact .inl ⟨heq, (some.inj hu).symm⟩
  case isFalse hne => exact .inr ⟨hne, hu⟩

theorem Tracked.setConn (h : Tracked s) (hconn : ∀ t, conn ≠ .inserting t) :
    Tracked (s.setConn c conn) where
  __ := h
  inserting := by
    intro c' t hc
    obtain ⟨-, hin⟩ | ⟨-, hc⟩ := of_setConn hc
    exacts [absurd hin (hconn t), h.inserting c' t hc]
  owner := by
    intro c₁ c₂ t h₁ h₂
    obtain ⟨-, hin⟩ | ⟨-, h₁⟩ := of_setConn h₁
    · exact absurd hin (hconn t)
    · obtain ⟨-, hin⟩ | ⟨-, h₂⟩ := of_setConn h₂
      exacts [absurd hin (hconn t), h.owner c₁ c₂ t h₁ h₂]

/-- What a tab keeps as it goes on: its id, and whatever it has been through. It may be given up by
the OPEN that spawned it. -/
structure Tab.Goes (tab tab' : Tab) : Prop where
  tabId : tab'.tabId = tab.tabId
  stage : tab'.stage = tab.stage ∨ tab'.stage = .abandoned
  killed : tab'.killed = false → tab.killed = false
  exited : tab'.exited = false → tab.exited = false
  finished : tab'.finished = false → tab.finished = false

theorem Tab.Goes.refl (tab : Tab) : tab.Goes tab := ⟨rfl, .inl rfl, id, id, id⟩

theorem Tab.Goes.stage_eq (h : tab.Goes tab') (hne : tab'.stage ≠ .abandoned) :
    tab.stage = tab'.stage :=
  h.stage.elim Eq.symm fun h ↦ absurd h hne

theorem Tab.Goes.running (h : tab.Goes tab') (hrun : tab'.running) : tab.running :=
  ⟨h.exited hrun.1, h.killed hrun.2⟩

theorem origin {v : Tab} (htab : s.tabs t = some tab) (hgo : tab.Goes tab')
    (hu : (s.setTab t tab').tabs u = some v) :
    ∃ v₀, s.tabs u = some v₀ ∧ v₀.Goes v ∧ (u ≠ t ∧ v₀ = v ∨ u = t ∧ v = tab') := by
  obtain ⟨rfl, rfl⟩ | ⟨hne, hu⟩ := of_setTab hu
  exacts [⟨tab, htab, hgo, .inr ⟨rfl, rfl⟩⟩, ⟨v, hu, .refl v, .inl ⟨hne, rfl⟩⟩]

section

variable (h : Tracked s)
include h

namespace Tracked

section

variable (htab : s.tabs t = some tab) (hgo : tab.Goes tab')
  (hended : tab'.eof ∨ tab'.finished → tab'.exited)
include htab hgo hended

section

variable (hconns : tab'.stage = tab.stage ∨ ∀ c, s.conns c ≠ .inserting t)
include hconns

theorem goes
    {inner : String → Option ℕ} (hnone : ∀ tabId, s.inner tabId = none → inner tabId = none)
    (hkeep : ∀ u v, s.tabs u = some v → s.inner v.tabId = some u →
      (u = t → tab'.killed = false ∧ tab'.finished = false) → inner v.tabId = some u) :
    Tracked { s.setTab t tab' with inner := inner } where
  entry := by
    intro u v hu hlive hkilled hfinished
    obtain ⟨v₀, hu₀, hv, hwhich⟩ := origin htab hgo hu
    rw [hv.tabId]
    have hlive₀ := hv.stage_eq (by simp [hlive])
    refine hkeep u v₀ hu₀ ?_ ?_
    · exact h.entry u v₀ hu₀ (hlive₀.trans hlive) (hv.killed hkilled) (hv.finished hfinished)
    · rintro rfl
      obtain ⟨hne, -⟩ | ⟨-, rfl⟩ := hwhich
      exacts [absurd rfl hne, ⟨hkilled, hfinished⟩]
  pending := by
    intro u v hu hpending
    obtain ⟨v₀, hu₀, hv, -⟩ := origin htab hgo hu
    rw [hv.tabId]
    exact hnone _ (h.pending u v₀ hu₀ ((hv.stage_eq (by simp [hpending])).trans hpending))
  alone := by
    intro u u' v v' hu hu' hid hp hp'
    obtain ⟨v₀, hu₀, hv, -⟩ := origin htab hgo hu
    obtain ⟨v₀', hu₀', hv', -⟩ := origin htab hgo hu'
    exact h.alone u u' v₀ v₀' hu₀ hu₀' (by rw [← hv.tabId, ← hv'.tabId, hid])
      ((hv.stage_eq (by simp [hp])).trans hp) ((hv'.stage_eq (by simp [hp'])).trans hp')
  single := by
    intro u u' v v' hu hu' hid hrun hrun'
    obtain ⟨v₀, hu₀, hv, -⟩ := origin htab hgo hu
    obtain ⟨v₀', hu₀', hv', -⟩ := origin htab hgo hu'
    exact h.single u u' v₀ v₀' hu₀ hu₀' (by rw [← hv.tabId, ← hv'.tabId, hid]) (hv.running hrun)
      (hv'.running hrun')
  ended := by
    intro u v hu
    obtain ⟨v₀, hu₀, -, ⟨-, rfl⟩ | ⟨-, rfl⟩⟩ := origin htab hgo hu
    exacts [h.ended u v₀ hu₀, hended]
  inserting := by
    intro c u hc
    obtain ⟨v, hu, hpending⟩ := h.inserting c u hc
    rcases eq_or_ne u t with rfl | hne
    · obtain rfl := some.inj (htab.symm.trans hu)
      rcases hconns with hstage | hnot
      · exact ⟨tab', update_self .., hstage.trans hpending⟩
      · exact absurd hc (hnot c)
    · exact ⟨v, (update_of_ne hne ..).trans hu, hpending⟩
  owner := h.owner

theorem setTab : Tracked (s.setTab t tab') :=
  h.goes htab hgo hended hconns (fun _ ↦ id) fun _ _ _ hentry _ ↦ hentry

end

theorem retire (hstage : tab'.stage = tab.stage) (hown : ∀ u ∈ s.inner tab.tabId, u = t)
    (hend : tab'.killed ∨ tab'.finished) : Tracked ((s.remove tab.tabId).setTab t tab') := by
  refine h.goes htab hgo hended (.inl hstage) ?_ ?_
  · intro tabId hnone
    simp only [Tabs.remove, update_apply, hnone, ite_self]
  · intro u v hu hentry hopen
    rcases eq_or_ne v.tabId tab.tabId with hid | hne
    · -- the entry under the id is the tab that ends
      obtain ⟨hkilled, hfinished⟩ := hopen (hown u (hid ▸ hentry))
      exact absurd hend (by simp [hkilled, hfinished])
    · simpa only [Tabs.remove, update_of_ne hne] using hentry

end

theorem spawn {tabId : String} (hfresh : s.tabs t = none) (hnone : s.inner tabId = none)
    (hothers : ∀ t tab, s.tabs t = some tab → tab.tabId = tabId →
      tab.stage ≠ .pending ∧ (tab.stage = .abandoned → tab.exited)) :
    Tracked ((s.setTab t (.spawned tabId)).setConn c (.inserting t)) := by
  have hnot : ∀ c', s.conns c' ≠ .inserting t := by
    intro c' hc
    obtain ⟨v, hv, -⟩ := h.inserting c' t hc
    rw [hfresh] at hv
    cases hv
  -- no child of the id runs any more
  have hdead : ∀ {u v}, s.tabs u = some v → v.tabId = tabId → ¬ v.running := by
    intro u v hu hid hrun
    obtain ⟨hpending, habandoned⟩ := hothers u v hu hid
    cases hstage : v.stage with
    | pending => exact hpending hstage
    | abandoned => exact absurd hrun.1 (by simp [habandoned hstage])
    | live =>
      have hopen : v.finished = false := by
        by_contra hfin
        exact absurd hrun.1 (by simp [h.ended u v hu (.inr (by simpa using hfin))])
      have hentry := h.entry u v hu hstage hrun.2 hopen
      rw [hid, hnone] at hentry
      cases hentry
  refine ⟨?_, ?_, ?_, ?_, ?_, ?_, ?_⟩
  · intro u v hu hlive hkilled hfinished
    obtain ⟨-, rfl⟩ | ⟨-, hu⟩ := of_setTab hu
    · cases hlive
    · exact h.entry u v hu hlive hkilled hfinished
  · intro u v hu hpending
    obtain ⟨-, rfl⟩ | ⟨-, hu⟩ := of_setTab hu
    exacts [hnone, h.pending u v hu hpending]
  · intro u u' v v' hu hu' hid hp hp'
    obtain ⟨rfl, rfl⟩ | ⟨-, hu⟩ := of_setTab hu
    · obtain ⟨rfl, -⟩ | ⟨-, hu'⟩ := of_setTab hu'
      exacts [rfl, absurd hp' (hothers u' v' hu' hid.symm).1]
    · obtain ⟨-, rfl⟩ | ⟨-, hu'⟩ := of_setTab hu'
      exacts [absurd hp (hothers u v hu hid).1, h.alone u u' v v' hu hu' hid hp hp']
  · intro u u' v v' hu hu' hid hrun hrun'
    obtain ⟨rfl, rfl⟩ | ⟨-, hu⟩ := of_setTab hu
    · obtain ⟨rfl, -⟩ | ⟨-, hu'⟩ := of_setTab hu'
      exacts [rfl, absurd hrun' (hdead hu' hid.symm)]
    · obtain ⟨-, rfl⟩ | ⟨-, hu'⟩ := of_setTab hu'
      exacts [absurd hrun (hdead hu hid), h.single u u' v v' hu hu' hid hrun hrun']
  · intro u v hu
    obtain ⟨-, rfl⟩ | ⟨-, hu⟩ := of_setTab hu
    · rintro (⟨⟨⟩⟩ | ⟨⟨⟩⟩)
    · exact h.ended u v hu
  · intro c' u hc
    obtain ⟨-, ⟨⟩⟩ | ⟨-, hc⟩ := of_setConn hc
    · exact ⟨.spawned tabId, update_self .., rfl⟩
    · obtain ⟨v, hu, hpending⟩ := h.inserting c' u hc
      have hne : u ≠ t := fun heq ↦ hnot c' (heq ▸ hc)
      exact ⟨v, (update_of_ne hne ..).trans hu, hpending⟩
  · intro c₁ c₂ u h₁ h₂
    obtain ⟨rfl, ⟨⟩⟩ | ⟨-, h₁⟩ := of_setConn h₁
    · obtain ⟨rfl, -⟩ | ⟨-, h₂⟩ := of_setConn h₂
      exacts [rfl, absurd h₂ (hnot c₂)]
    · obtain ⟨-, ⟨⟩⟩ | ⟨-, h₂⟩ := of_setConn h₂
      exacts [absurd h₁ (hnot c₁), h.owner c₁ c₂ u h₁ h₂]

theorem released (hconn : s.conns c = .inserting t)
    (hleft : conn ≠ .inserting t) : ∀ c', (s.setConn c conn).conns c' ≠ .inserting t := by
  intro c' hc
  obtain ⟨-, hin⟩ | ⟨hne, hc⟩ := of_setConn hc
  exacts [hleft hin, hne (h.owner c' c t hc hconn)]

theorem insert (htab : s.tabs t = some tab) (hpending : tab.stage = .pending)
    (hconns : ∀ c, s.conns c ≠ .inserting t) : Tracked { s.setTab t { tab with stage := .live } with
      inner := update s.inner tab.tabId (some t) } := by
  have hnone := h.pending t tab htab hpending
  refine ⟨?_, ?_, ?_, ?_, ?_, ?_, ?_⟩
  · intro u v hu hlive hkilled hfinished
    obtain ⟨rfl, rfl⟩ | ⟨-, hu⟩ := of_setTab hu
    · exact update_self ..
    · have hentry := h.entry u v hu hlive hkilled hfinished
      have hne : v.tabId ≠ tab.tabId := by
        intro hid
        rw [hid, hnone] at hentry
        cases hentry
      exact (update_of_ne hne ..).trans hentry
  · intro u v hu hp
    obtain ⟨-, rfl⟩ | ⟨hut, hu⟩ := of_setTab hu
    · cases hp
    · have hne : v.tabId ≠ tab.tabId := fun hid ↦ hut (h.alone u t v tab hu htab hid hp hpending)
      exact (update_of_ne hne ..).trans (h.pending u v hu hp)
  · intro u u' v v' hu hu' hid hp hp'
    obtain ⟨-, rfl⟩ | ⟨-, hu⟩ := of_setTab hu
    · cases hp
    · obtain ⟨-, rfl⟩ | ⟨-, hu'⟩ := of_setTab hu'
      · cases hp'
      · exact h.alone u u' v v' hu hu' hid hp hp'
  · intro u u' v v' hu hu' hid hrun hrun'
    obtain ⟨rfl, rfl⟩ | ⟨-, h₁⟩ := of_setTab hu
    · obtain ⟨rfl, -⟩ | ⟨-, h₂⟩ := of_setTab hu'
      exacts [rfl, h.single u u' tab v' htab h₂ hid hrun hrun']
    · obtain ⟨rfl, rfl⟩ | ⟨-, h₂⟩ := of_setTab hu'
      exacts [h.single u u' v tab h₁ htab hid hrun hrun', h.single u u' v v' h₁ h₂ hid hrun hrun']
  · intro u v hu
    obtain ⟨-, rfl⟩ | ⟨-, hu⟩ := of_setTab hu
    exacts [h.ended t tab htab, h.ended u v hu]
  · intro c u hc
    obtain ⟨v, hv, hp⟩ := h.inserting c u hc
    have hne : u ≠ t := by
      rintro rfl
      exact hconns c hc
    exact ⟨v, (update_of_ne hne ..).trans hv, hp⟩
  · exact h.owner

theorem step {a : Act} (ha : Orderly s a) (hstep : s.step a = some s') : Tracked s' := by
  cases step_move hstep with
  | attach | start | spawnFail | detach => exact h.setConn (by simp)
  | spawnPty hconn hfresh =>
    obtain ⟨hnone, hothers⟩ := ha _ hconn
    exact h.spawn hfresh hnone hothers
  | @cloneFail c t tab hconn htab =>
    have hended := h.ended t tab htab
    have hc : Tracked (s.setConn c .idle) := h.setConn (by simp)
    exact hc.setTab htab ⟨rfl, .inr rfl, id, id, id⟩ hended (.inr (h.released hconn nofun))
  | insert hconn htab =>
    obtain ⟨v, hv, hpending⟩ := h.inserting _ _ hconn
    obtain rfl := some.inj (htab.symm.trans hv)
    exact (h.setConn (by simp)).insert htab hpending (h.released hconn nofun)
  | killRemove hconn htab =>
    have hended := h.ended _ _ htab
    refine Tracked.setConn ?_ (by simp)
    exact h.retire htab ⟨rfl, .inl rfl, nofun, id, id⟩ hended rfl (ha _ _ hconn htab) (.inl rfl)
  | killTree hconn htab =>
    refine Tracked.setConn ?_ (by simp)
    exact h.setTab htab ⟨rfl, .inl rfl, id, nofun, id⟩ (fun _ ↦ rfl) (.inl rfl)
  | childExit htab =>
    exact h.setTab htab ⟨rfl, .inl rfl, id, nofun, id⟩ (fun _ ↦ rfl) (.inl rfl)
  | readerEof htab hlive =>
    have hexited := ha _ htab
    exact h.setTab htab ⟨rfl, .inl rfl, id, id, id⟩ (fun _ ↦ hexited) (.inl rfl)
  | readerRemove htab heof =>
    have hexited := h.ended _ _ htab (.inl heof)
    exact h.retire htab ⟨rfl, .inl rfl, id, id, nofun⟩ (fun _ ↦ hexited) rfl (ha _ htab) (.inr rfl)

end Tracked

end

theorem tracked_new : Tracked .new where
  entry _ _ h := nomatch h
  pending _ _ h := nomatch h
  alone _ _ _ _ h := nomatch h
  single _ _ _ _ h := nomatch h
  ended _ _ h := nomatch h
  inserting _ _ h := nomatch h
  owner _ _ _ h := nomatch h

theorem reaches_tracked (h : Reaches Tabs.step Orderly .new s) : Tracked s :=
  h.invariant (fun hs ha hstep ↦ hs.step ha hstep) tracked_new

/-- The registry tracks the live tabs, no id has two running children, and the end of a tab leaves
the entries of the other tabs alone. -/
theorem registry_tracks (h : Reaches Tabs.step Orderly .new s) :
    (∀ t tab, s.tabs t = some tab → tab.stage = .live → tab.killed = false → tab.finished = false →
      s.inner tab.tabId = some t) ∧
    (∀ t t' tab tab', s.tabs t = some tab → s.tabs t' = some tab' → tab.tabId = tab'.tabId →
      tab.running → tab'.running → t = t') ∧
    (∀ t s', Orderly s (.readerRemove t) → s.step (.readerRemove t) = some s' →
      ∀ tabId u, u ≠ t → s.inner tabId = some u → s'.inner tabId = some u) := by
  have hs := reaches_tracked h
  refine ⟨hs.entry, hs.single, ?_⟩
  intro t s' ha hstep tabId u hne hentry
  cases step_move hstep with
  | @readerRemove t tab htab =>
    have hid : tabId ≠ tab.tabId := fun hid ↦ hne (ha _ htab u (hid ▸ hentry))
    exact (update_of_ne hid ..).trans hentry

end Steps

theorem registry_tracks_reopened :
    ∃ s, Reaches Tabs.step Orderly .new s ∧
      s.tabs 0 = some ⟨"a", .live, false, true, true, true⟩ ∧ s.inner "a" = some 1 := by
  have hopen : Reaches Tabs.step Orderly .new _ :=
    ((Reaches.refl.snoc (a := Act.get 0 "a") trivial rfl).snoc (a := Act.spawnPty 0 0) (by
      rintro tabId hconn
      exact ⟨rfl, nofun⟩) rfl).snoc (a := Act.insert 0) trivial rfl
  have hgone : Reaches Tabs.step Orderly .new _ :=
    ((hopen.snoc (a := Act.childExit 0) trivial rfl).snoc (a := Act.readerEof 0) (by
      rintro tab htab
      cases htab
      rfl) rfl).snoc (a := Act.readerRemove 0) (by
      rintro tab htab u hu
      cases htab
      cases hu
      rfl) rfl
  have hagain : Reaches Tabs.step Orderly .new _ :=
    ((hgone.snoc (a := Act.get 0 "a") trivial rfl).snoc (a := Act.spawnPty 0 1) (by
      rintro tabId hconn
      cases hconn
      refine ⟨rfl, ?_⟩
      rintro (_ | t) tab htab hid
      · cases htab
        exact ⟨nofun, nofun⟩
      · cases htab) rfl).snoc (a := Act.insert 0) trivial rfl
  exact ⟨_, hagain, rfl, (registry_tracks hagain).1 1 _ rfl rfl rfl rfl⟩

def openedTwice : List Act :=
  [.get 0 "a", .get 1 "a", .spawnPty 0 0, .insert 0, .spawnPty 1 1, .insert 1]

def removedByPredecessor : List Act :=
  [.get 0 "a", .spawnPty 0 0, .insert 0, .killRemove 0, .killTree 0,
    .get 0 "a", .spawnPty 0 1, .insert 0, .readerEof 0, .readerRemove 0]

/-- Two children of one id run at once and only one of them is in the map; and a live tab is removed
at the end of a killed tab that had its id before. -/
theorem live_tab_untracked :
    (∃ s, Reaches Tabs.step anything .new s ∧ s.inner "a" = some 1 ∧
      ∃ tab, s.tabs 0 = some tab ∧ s.tabs 1 = some tab ∧ tab.tabId = "a" ∧ tab.stage = .live ∧
        tab.running ∧ tab.finished = false) ∧
    (∃ s, Reaches Tabs.step anything .new s ∧ s.inner "a" = none ∧
      ∃ tab, s.tabs 1 = some tab ∧ tab.tabId = "a" ∧ tab.stage = .live ∧ tab.running ∧
        tab.finished = false) := by
  have htwice : Reaches Tabs.step anything .new _ :=
    Reaches.refl.run openedTwice (fun _ _ _ ↦ trivial) rfl
  have hremoved : Reaches Tabs.step anything .new _ :=
    Reaches.refl.run removedByPredecessor (fun _ _ _ ↦ trivial) rfl
  exact ⟨⟨_, htwice, rfl, _, rfl, rfl, rfl, rfl, ⟨rfl, rfl⟩, rfl⟩,
    ⟨_, hremoved, rfl, _, rfl, rfl, rfl, ⟨rfl, rfl⟩, rfl⟩⟩

end Temps.PtyAgent.Registry
