import Temps.Proxy.CertJobs

namespace Temps.Proxy.OnDemandCert

open Temps.Core.PublicHostname (Text toAsciiLowercase)
open Lib.Machine Lib.Unicode List

def AttemptPhase.isRunning : AttemptPhase → Bool
  | .running _ => true
  | _ => false

def Attempt.runsFor (p : Text → Bool) (attempt : Attempt) : Bool :=
  p attempt.host && attempt.phase.isRunning

namespace Phase

def rolls : Phase → Bool
  | .rolling _ | .resetting => true
  | _ => false

def holdsSlot : Phase → Bool
  | .granted | .claiming _ | .sending => true
  | _ => false

def backs : Phase → Bool
  | .backing => true
  | _ => false

def inWindow : Phase → Bool
  | .gated | .checked | .admitted | .timed _ => false
  | _ => true

end Phase

namespace Process

def load (s : Process) (p : Text → Bool) : ℕ :=
  s.attempts.countP (·.runsFor p) + s.orphans.countP (p ·.host)

def enqueued (s : Process) : ℕ := s.answers.count .enqueued

structure Bounded (cfg : OnDemandCertConfig) (s : Process) : Prop where
  single : ∀ host, s.load (· == host) ≤ 1
  total : s.load (fun _ ↦ true) ≤ cfg.maxConcurrent
  waited : ∀ attempt ∈ s.attempts, attempt.phase = .marked →
    s.lastBackoff attempt.host ≤ s.clock
  hourly : s.enqueued ≤ cfg.hourlyCap

/-- The steps of one process in which no call of the provisioner starts while one that timed out
still runs, no call of `try_enqueue` reads the start of the hourly window while another rolls it
over, and none finds the hour elapsed while another is between its read and its answer. -/
def Orderly (s : Process) : Act → Prop
  | .restart _ _ => False
  | .issuance attempt => attempt.phase = .marked → s.orphans = []
  | .caller call => ∀ now, call.phase = .timed now → ∀ other ∈ s.callers.erase call,
    other.phase.rolls = false ∧
      (hourlyWindowSecs ≤ now - s.hourlyWindowStart → other.phase.inWindow = false)
  | _ => True

variable {u : Tables} {cfg : OnDemandCertConfig} {s t : Process} {stale : Text → Bool}
  {call : Caller} {attempt : Attempt} {a : Act} {host : Text}

theorem Orderly.stays (h : Orderly s a) : Stays a := by
  cases a with
  | restart => exact h
  | _ => trivial

structure Permitted (cfg : OnDemandCertConfig) (s : Process) : Prop where
  permits : s.attempts.length ≤ cfg.maxConcurrent
  total : s.load (fun _ ↦ true) ≤ cfg.maxConcurrent
  single : ∀ host, s.load (· == host) ≤ 1

theorem worksOn_of_runsFor (h : attempt.runsFor (· == host)) : attempt.worksOn host := by
  simp only [Attempt.runsFor, Attempt.worksOn] at h ⊢
  cases hphase : attempt.phase <;> simp_all [AttemptPhase.isRunning, AttemptPhase.atWork]

theorem callStep_attempts (cfg : OnDemandCertConfig) (s : Process) (call : Caller) :
    (s.callStep cfg call).attempts = s.attempts ∧ (s.callStep cfg call).orphans = s.orphans := by
  fun_cases callStep cfg s call
  case case4 ip _ _ | case5 ip _ _ =>
    obtain ⟨novelty, heq⟩ := s.allowIpNovelty_eq ip
    rw [heq]
    exact ⟨rfl, rfl⟩
  all_goals exact ⟨rfl, rfl⟩

theorem Permitted.of_le (h : Permitted cfg s)
    (hlength : t.attempts.length ≤ s.attempts.length) (hload : ∀ p, t.load p ≤ s.load p) :
    Permitted cfg t where
  permits := hlength.trans h.permits
  total := (hload _).trans h.total
  single host := (hload _).trans (h.single host)

section

variable (hmem : attempt ∈ s.attempts)
include hmem

theorem length_advance (phase : AttemptPhase) :
    (s.advance attempt phase).attempts.length = s.attempts.length := by
  have hpos := length_pos_of_mem hmem
  simp only [advance, length_cons, length_erase_of_mem hmem]
  omega

theorem runs_advance (p : Text → Bool) (phase : AttemptPhase) :
    (s.advance attempt phase).attempts.countP (·.runsFor p) + (attempt.runsFor p).toNat =
      s.attempts.countP (·.runsFor p) + (p attempt.host && phase.isRunning).toNat := by
  have herase := countP_erase_add (·.runsFor p) hmem
  have hnew : Attempt.runsFor p ⟨attempt.host, phase⟩ = (p attempt.host && phase.isRunning) := rfl
  simp only [advance, countP_cons, hnew]
  cases p attempt.host && phase.isRunning <;> simp <;> omega

theorem Tallied.alone (htally : Tallied stale s)
    (hphase : attempt.phase = .marked) : s.attempts.countP (·.runsFor (· == attempt.host)) = 0 := by
  have hwork : attempt.phase.atWork := by simp [hphase, AttemptPhase.atWork]
  have hjobs := (htally.of_job (jobs_pos_of_atWork hmem hwork)).1
  have hworks := countP_erase_add (·.worksOn attempt.host) hmem
  have hruns := countP_erase_add (·.runsFor (· == attempt.host)) hmem
  have hself : attempt.worksOn attempt.host := by simp [Attempt.worksOn, hwork]
  have hidle : attempt.runsFor (· == attempt.host) = false := by
    simp [Attempt.runsFor, hphase, AttemptPhase.isRunning]
  have hothers : (s.attempts.erase attempt).countP (·.runsFor (· == attempt.host)) ≤
      (s.attempts.erase attempt).countP (·.worksOn attempt.host) :=
    countP_mono_left fun _ _ ↦ worksOn_of_runsFor
  simp only [hself, hidle, Bool.toNat_true, Bool.toNat_false] at hworks hruns
  simp only [jobs] at hjobs
  omega

end

namespace Permitted

variable (h : Permitted cfg s) {event : ProvisionStep}
include h

section

variable (hmem : attempt ∈ s.attempts)
include hmem

theorem advance {phase : AttemptPhase} (hto : phase.isRunning → attempt.phase.isRunning) :
    Permitted cfg (s.advance attempt phase) := by
  refine h.of_le (length_advance hmem phase).le fun p ↦ ?_
  have hcount := runs_advance hmem p phase
  have hle : (p attempt.host && phase.isRunning).toNat ≤ (attempt.runsFor p).toNat := by
    unfold Attempt.runsFor
    cases hphase : phase.isRunning with
    | false => simp
    | true => rw [hto hphase]
  have horphans : (s.advance attempt phase).orphans = s.orphans := rfl
  simp only [load, horphans]
  omega

theorem expire (hrunning : attempt.phase.isRunning) (stage : Stage) :
    Permitted cfg
      { s.advance attempt .expired with orphans := ⟨attempt.host, stage⟩ :: s.orphans } := by
  refine h.of_le (length_advance hmem .expired).le fun p ↦ ?_
  have hcount := runs_advance hmem p .expired
  have hself : attempt.runsFor p = p attempt.host := by simp [Attempt.runsFor, hrunning]
  have hexpired : (p attempt.host && AttemptPhase.expired.isRunning) = false := Bool.and_false _
  rw [hself, hexpired] at hcount
  simp only [load]
  cases hhost : p attempt.host <;> simp [hhost] at hcount ⊢ <;> omega

theorem spawn (htally : Tallied stale s) (hphase : attempt.phase = .marked)
    (horphans : s.orphans = []) :
    Permitted cfg (s.advance attempt (.running .entered)) := by
  have hlength := length_advance hmem (.running .entered)
  have hload (p : Text → Bool) : (s.advance attempt (.running .entered)).load p =
      (s.advance attempt (.running .entered)).attempts.countP (·.runsFor p) := by
    simp [load, Process.advance, horphans]
  refine ⟨hlength.trans_le h.permits, ?_, fun host ↦ ?_⟩
  · rw [hload]
    exact countP_le_length.trans (hlength.trans_le h.permits)
  · have hcount := runs_advance hmem (· == host) (.running .entered)
    have hsingle := h.single host
    rw [hload]
    rw [load] at hsingle
    by_cases hhost : attempt.host = host
    · have halone := htally.alone hmem hphase
      rw [hhost] at halone
      have hle := Bool.toNat_le (attempt.host == host && (AttemptPhase.running .entered).isRunning)
      omega
    · have hne : (attempt.host == host) = false := by simpa using hhost
      rw [hne, Bool.false_and, Bool.toNat_false] at hcount
      omega

theorem issuanceStep (htally : Tallied stale s) (hfree : attempt.phase = .marked → s.orphans = [])
    (hstep : s.issuanceStep attempt = some t) : Permitted cfg t := by
  have hmarked : Permitted cfg (s.advance attempt .marked) := h.advance hmem nofun
  have hdone : Permitted cfg (s.advance attempt .done) := h.advance hmem nofun
  revert hstep
  fun_cases Process.issuanceStep s attempt <;> rintro ⟨⟩
  case case1 => exact hmarked.of_le le_rfl fun _ ↦ le_rfl
  case case2 hphase => exact h.spawn hmem htally hphase (hfree hphase)
  case case8 =>
    refine h.of_le (length_erase_le ..) fun p ↦ ?_
    have hcount := countP_erase_add (·.runsFor p) hmem
    simp only [load]
    omega
  all_goals exact hdone.of_le le_rfl fun _ ↦ le_rfl

theorem provisionStep (hstep : s.provisionStep attempt event = some t) : Permitted cfg t := by
  obtain ⟨stage, phase, rows, hphase, -, rfl⟩ := provisionStep_eq hstep
  have hgone : Permitted cfg (s.advance attempt phase) :=
    h.advance hmem fun _ ↦ by simp [hphase, AttemptPhase.isRunning]
  exact hgone.of_le le_rfl fun _ ↦ le_rfl

theorem timeoutStep (hstep : s.timeoutStep attempt = some t) : Permitted cfg t := by
  obtain ⟨stage, hphase, rfl⟩ := timeoutStep_eq hstep
  exact h.expire hmem (by simp [hphase, AttemptPhase.isRunning]) stage

end

section

variable {orphan : Orphan} (hmem : orphan ∈ s.orphans)
include hmem

theorem erase_orphan (rows : List DomainRow) :
    Permitted cfg { s with rows := rows, orphans := s.orphans.erase orphan } := by
  refine h.of_le le_rfl fun p ↦ ?_
  have hcount := countP_erase_add (p ·.host) hmem
  simp only [load]
  omega

theorem move_orphan (rows : List DomainRow) (stage : Stage) :
    Permitted cfg
      { s with rows := rows, orphans := ⟨orphan.host, stage⟩ :: s.orphans.erase orphan } := by
  refine h.of_le le_rfl fun p ↦ ?_
  have hcount := countP_erase_add (p ·.host) hmem
  simp only [load]
  cases hhost : p orphan.host <;> simp [hhost] at hcount ⊢ <;> omega

theorem orphanStep (hstep : s.orphanStep orphan event = some t) : Permitted cfg t := by
  obtain ⟨⟨next, rows⟩, -, rfl⟩ := Option.map_eq_some_iff.mp hstep
  cases next with
  | inl stage => exact h.move_orphan hmem rows stage
  | inr outcome => exact h.erase_orphan hmem rows

end

theorem step (htally : Tallied stale s) (horderly : Orderly s a)
    (hstep : s.step u cfg a = some t) : Permitted cfg t := by
  revert horderly hstep
  fun_cases Process.step u cfg s a <;> intro horderly
  case case13 hmem => exact h.issuanceStep hmem htally horderly
  case case15 hmem => exact h.provisionStep hmem
  case case17 hmem => exact h.timeoutStep hmem
  case case19 hmem => exact h.orphanStep hmem
  case case21 => exact horderly.elim
  all_goals rintro ⟨⟩
  case case6 call _ =>
    obtain ⟨hattempts, horphans⟩ := callStep_attempts cfg s call
    exact h.of_le (by rw [hattempts]) fun p ↦ by rw [load, load, hattempts, horphans]
  case case10 job _ hlt =>
    have hload (p : Text → Bool) :
        ({ s with holding := none, attempts := ⟨job, .begun⟩ :: s.attempts } : Process).load p =
          s.load p := by
      simp [load, Attempt.runsFor, AttemptPhase.isRunning]
    exact ⟨hlt, (hload _).trans_le h.total, fun host ↦ (hload _).trans_le (h.single host)⟩
  all_goals exact h.of_le le_rfl fun _ ↦ le_rfl

end Permitted

end Process

end Temps.Proxy.OnDemandCert
