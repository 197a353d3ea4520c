import Temps.Proxy.OnDemand

namespace Temps.Proxy.OnDemand

open List Option

variable {m : Manager} {failing : Option Point} {w : World}

theorem restored_self : Restored m w w := ⟨rfl, fun _ _ ↦ rfl⟩

theorem not_restored_setSleeping {flag : Bool} (h : w.sleeping = some !flag) :
    ¬ Restored m w (w.setSleeping flag) := by
  intro hr
  have hflag := hr.1
  rw [h] at hflag
  simp at hflag

theorem deployment_setSleeping (w : World) (flag : Bool) :
    (w.setSleeping flag).environment.bind Environment.currentDeploymentId =
      w.environment.bind Environment.currentDeploymentId := by
  cases henv : w.environment <;> simp [World.setSleeping, henv]

theorem restored_iff (after : World) (bad : String → Prop) [DecidablePred bad]
    (hflag : after.sleeping = w.sleeping)
    (hrun : ∀ c ∈ w.currentLocals m, after.running c = if bad c then w.running c else false) :
    Restored m w after ↔ ∀ c ∈ w.currentLocals m, ¬ bad c → w.running c = false := by
  constructor
  · intro hr c hc hgood
    rw [← hr.2 c hc, hrun c hc, if_neg hgood]
  · intro hall
    refine ⟨hflag, fun c hc ↦ ?_⟩
    rw [hrun c hc]
    split
    · rfl
    · rw [hall c hc ‹_›]

theorem stopLocals_noEffect (hflag : w.sleeping = some false) :
    ((stopLocals failing (w.setSleeping true) (w.currentLocals m)).2 ≠ .ok true →
        Restored m w (stopLocals failing (w.setSleeping true) (w.currentLocals m)).1) ↔
      ∀ id ∈ w.currentLocals m, failing = some (.stop id) →
        ∀ c ∈ w.currentLocals m, c ≠ id → w.running c = false := by
  rw [stopLocals]
  by_cases hbad : ∃ id ∈ w.currentLocals m, failing = some (.stop id)
  · obtain ⟨id, hid, rfl⟩ := hbad
    have hfailed : ((w.currentLocals m).filter fun c ↦ some (Point.stop id) = some (.stop c)) ≠ [] :=
      ne_nil_of_mem (mem_filter.mpr ⟨hid, by simp⟩)
    rw [if_neg (by simpa using hfailed)]
    have hiff := restored_iff (m := m) (w := w)
      (((w.setSleeping true).stopAll ((w.currentLocals m).filter fun c ↦
        some (Point.stop id) ≠ some (.stop c))).setSleeping false) (· = id) (by simp [hflag]) (by
        intro c hc
        by_cases hcid : c = id
        · simp [running_stopAll, hcid]
        · simp [running_stopAll, hc, hcid, Ne.symm hcid])
    refine ⟨fun h id' _ heq c hc hne ↦ ?_, fun h _ ↦ hiff.mpr fun c hc hne ↦ h id hid rfl c hc hne⟩
    obtain rfl : id = id' := by simpa using heq
    exact hiff.mp (h (by simp)) c hc hne
  · have hfailed : ((w.currentLocals m).filter fun c ↦ failing = some (.stop c)) = [] :=
      filter_eq_nil_iff.mpr fun c hc ↦ by simpa using fun heq ↦ hbad ⟨c, hc, heq⟩
    rw [if_pos (by simp [hfailed])]
    exact ⟨fun _ id hid heq ↦ absurd ⟨id, hid, heq⟩ hbad, fun _ h ↦ absurd rfl h⟩

theorem sleep_noEffect_iff : NoEffect m failing .sleep w ↔ Compensated m failing .sleep w := by
  have hbind := deployment_setSleeping w true
  rw [NoEffect, run]
  fun_cases sleepEnvironment m failing w
  case case1 hfail => exact iff_of_true (fun _ ↦ restored_self) fun _ h ↦ absurd hfail h
  case case2 hturn => exact iff_of_true (fun _ ↦ restored_self) fun h ↦ absurd h hturn
  all_goals have hturn : w.sleeping = some false := not_not.mp ‹¬ w.sleeping ≠ some false›
  all_goals have hunset : ¬ Restored m w (w.setSleeping true) := not_restored_setSleeping hturn
  case case3 hfail _ _ hread =>
    exact iff_of_false (fun h ↦ hunset (h nofun)) fun h ↦ (h hturn hfail).1 hread
  case case4 henv =>
    rw [henv] at hbind
    exact iff_of_false (fun h ↦ hunset (h nofun)) fun h ↦ (h hturn ‹_›).2.1 hbind.symm
  case case5 henv hd =>
    rw [henv] at hbind
    exact iff_of_false (fun h ↦ hunset (h nofun)) fun h ↦ (h hturn ‹_›).2.1 (hbind.symm.trans hd)
  case case6 hrows =>
    exact iff_of_false (fun h ↦ hunset (h nofun)) fun h ↦ (h hturn ‹_›).2.2.1 hrows
  case case7 hfail _ _ hread env henv d hd hrows =>
    rw [henv] at hbind
    have hlocals := locals_of_deployment (m := m) (hbind.symm.trans hd)
    rw [localIds_setSleeping, ← hlocals, stopLocals_noEffect hturn]
    refine ⟨fun h _ _ ↦ ⟨hread, ?_, hrows, h⟩, fun h ↦ (h hturn hfail).2.2.2⟩
    rw [hbind.symm.trans hd]
    exact some_ne_none d

theorem restored_startStop (started : List String) (hflag : w.sleeping = some true) :
    Restored m w ((((w.setSleeping false).startAll started).stopAll started).setSleeping true) ↔
      ∀ c ∈ w.currentLocals m, c ∈ started → w.running c = false := by
  have hiff := restored_iff (m := m) (w := w)
    ((((w.setSleeping false).startAll started).stopAll started).setSleeping true) (· ∉ started)
    (by simp [hflag]) (by
      intro c _
      by_cases hc : c ∈ started <;> simp [running_stopAll, running_startAll, hc])
  simpa using hiff

theorem startLocals_noEffect (hflag : w.sleeping = some true) (hne : w.currentLocals m ≠ []) :
    ((startLocals m failing (w.setSleeping false) (w.currentLocals m)).2 ≠ .ok () →
        Restored m w (startLocals m failing (w.setSleeping false) (w.currentLocals m)).1) ↔
      (∀ id ∈ w.currentLocals m, failing = some (.start id) →
          ∀ c ∈ w.currentLocals m, c ≠ id → w.running c = false) ∧
        (failing = some .ready → ∀ c ∈ w.currentLocals m, w.running c = false) := by
  rw [startLocals]
  by_cases hbad : ∃ id ∈ w.currentLocals m, failing = some (.start id)
  · obtain ⟨id, hid, rfl⟩ := hbad
    have hfailed : ((w.currentLocals m).filter fun c ↦ some (Point.start id) = some (.start c)) ≠ [] :=
      ne_nil_of_mem (mem_filter.mpr ⟨hid, by simp⟩)
    rw [if_pos (by simpa using hfailed)]
    have hiff := restored_startStop (m := m)
      ((w.currentLocals m).filter fun c ↦ some (Point.start id) ≠ some (.start c)) hflag
    simp only [mem_filter, decide_eq_true_eq, ne_eq, some.injEq, Point.start.injEq]
      at hiff ⊢
    refine ⟨fun h ↦ ⟨fun id' _ heq c hc hcid ↦ ?_, fun h ↦ nomatch h⟩, fun h _ ↦ hiff.mpr ?_⟩
    · subst heq
      exact hiff.mp (h (by simp)) c hc ⟨hc, Ne.symm hcid⟩
    · exact fun c hc hstarted ↦ h.1 id hid rfl c hc (Ne.symm hstarted.2)
  · have hnone : ∀ c ∈ w.currentLocals m, failing ≠ some (.start c) :=
      fun c hc heq ↦ hbad ⟨c, hc, heq⟩
    have hfailed : ((w.currentLocals m).filter fun c ↦ failing = some (.start c)) = [] :=
      filter_eq_nil_iff.mpr fun c hc ↦ by simpa using hnone c hc
    have hstarted : ((w.currentLocals m).filter fun c ↦ failing ≠ some (.start c)) =
        w.currentLocals m := filter_eq_self.mpr fun c hc ↦ by simpa using hnone c hc
    rw [if_neg (by simp [hfailed])]
    by_cases hready : failing = some .ready
    · rw [if_pos ⟨hready, by rwa [hstarted]⟩, hstarted, restored_startStop _ hflag]
      refine ⟨fun h ↦ ⟨fun id hid heq ↦ absurd heq (hnone id hid), fun _ c hc ↦ ?_⟩,
        fun h _ c hc _ ↦ h.2 hready c hc⟩
      exact h (by simp) c hc hc
    · rw [if_neg fun hboth ↦ hready hboth.1]
      exact ⟨fun _ ↦ ⟨fun id hid heq ↦ absurd heq (hnone id hid), fun h ↦ absurd h hready⟩,
        fun _ h ↦ absurd rfl h⟩

theorem map_ne_ok_true {r : Except OnDemandError Unit} :
    (r.map fun _ ↦ true) ≠ .ok true ↔ r ≠ .ok () := by
  cases r with
  | error e | ok u => simp [Except.map]

theorem wake_noEffect_iff : NoEffect m failing .wake w ↔ Compensated m failing .wake w := by
  have hbind := deployment_setSleeping w false
  rw [NoEffect, run, map_ne_ok_true]
  fun_cases doWake m failing w
  case case1 hfail => exact iff_of_true (fun _ ↦ restored_self) fun _ h ↦ absurd hfail h
  case case2 hturn => exact iff_of_true (fun _ ↦ restored_self) fun h ↦ absurd h hturn
  all_goals have hturn : w.sleeping = some true := not_not.mp ‹¬ w.sleeping ≠ some true›
  all_goals have hunset : ¬ Restored m w (w.setSleeping false) := not_restored_setSleeping hturn
  case case3 hfail _ _ hread =>
    exact iff_of_false (fun h ↦ hunset (h nofun)) fun h ↦ (h hturn hfail).1 hread
  all_goals try rw [‹(w.setSleeping false).environment = _›] at hbind
  case case4 => exact iff_of_false (fun h ↦ hunset (h nofun)) fun h ↦ (h hturn ‹_›).2.1 hbind.symm
  case case5 hd =>
    exact iff_of_false (fun h ↦ hunset (h nofun)) fun h ↦ (h hturn ‹_›).2.1 (hbind.symm.trans hd)
  case case6 hrows =>
    exact iff_of_false (fun h ↦ hunset (h nofun)) fun h ↦ (h hturn ‹_›).2.2.1 hrows
  all_goals have hd := hbind.symm.trans ‹Environment.currentDeploymentId _ = _›
  all_goals have hlocals := locals_of_deployment (m := m) hd
  case case7 hread _ _ _ _ hrows hnil =>
    -- without local containers there is nothing to undo but the flag
    rw [containersOf_setSleeping, List.isEmpty_iff] at hnil
    have hempty : w.currentLocals m = [] := by simp [hlocals, World.localIds, hnil]
    refine iff_of_true (absurd rfl) fun _ _ ↦ ⟨hread, by simp [hd], hrows, ?_⟩
    simp [hempty]
  case case8 awake hread _ _ _ _ hrows _ hnil =>
    rw [localIds_setSleeping, ← hlocals, List.isEmpty_iff] at hnil
    refine iff_of_true (fun _ ↦ ?_) fun _ _ ↦ ⟨hread, by simp [hd], hrows, ?_⟩
    · exact ⟨by simp [awake, hturn], by simp [hnil]⟩
    · simp [hnil]
  case case9 hfail _ _ hread _ _ _ _ hrows _ hsome =>
    rw [localIds_setSleeping, ← hlocals] at hsome ⊢
    rw [startLocals_noEffect hturn (by simpa using hsome)]
    exact ⟨fun h _ _ ↦ ⟨hread, by simp [hd], hrows, h⟩, fun h ↦ (h hturn hfail).2.2.2⟩

/-- A failed call has no effect exactly when what it did before it failed is undone. -/
theorem noEffect_iff (m : Manager) (failing : Option Point) (op : Operation) (w : World) :
    NoEffect m failing op w ↔ Compensated m failing op w := by
  cases op with
  | sleep => exact sleep_noEffect_iff
  | wake => exact wake_noEffect_iff

/-- The worker cannot be stopped: the call fails and the flag is turned back, but `web` is down.
An environment without a deployment is marked as sleeping by a call that answers `Ok(false)`. When
the containers of a sleeping environment cannot be read, it stays marked as awake. -/
theorem failed_call_has_effect :
    (let w := sampleWorld false (some 3) ["web", "worker"]
     let r := run sampleManager (some (.stop "worker")) .sleep w
     r.2.toOption = none ∧ w.running "web" = true ∧ r.1.running "web" = false) ∧
    (let r := run sampleManager none .sleep (sampleWorld false none [])
     r.2.toOption = some false ∧ r.1.sleeping = some true) ∧
    (let r := run sampleManager (some .containers) .wake (sampleWorld true (some 3) [])
     r.2.toOption = none ∧ r.1.sleeping = some false) := by
  decide

end Temps.Proxy.OnDemand
