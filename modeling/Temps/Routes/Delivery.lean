import Temps.Routes.Floors

namespace Temps.Routes

open Lib.Machine List Function Option

namespace System

variable {environment deployment : ℕ} {s t : System} {a : Act} {claim : Claim}

/-- The numbers go on, and what stands for the old ones stays. -/
structure Extends (s t : System) : Prop where
  row_le : s.row ≤ t.row
  floor_eq : ∀ i, i ≤ s.row → t.floor i = s.floor i
  top_le : s.floor s.row ≤ t.floor t.row

theorem extends_of_eq (hrow : t.row = s.row) (hfloor : t.floor = s.floor) : Extends s t :=
  ⟨hrow.ge, fun _ _ ↦ hfloor ▸ rfl, by rw [hrow, hfloor]⟩

theorem succeed_row (owner : Owner) :
    (s.succeed owner).row = s.row ∧ (s.succeed owner).floor = s.floor := by
  cases owner with
  | reload =>
    simp only [succeed]
    split <;> exact ⟨rfl, rfl⟩
  | retry => exact ⟨rfl, rfl⟩

theorem Floored.extends_claim (h : Floored s) (hmem : claim ∈ s.claims)
    (hmove : ClaimMove s claim t) : Extends s t := by
  cases hmove with
  | read => exact extends_of_eq rfl rfl
  | commit acked hphase =>
    rw [h.commit_eq hmem hphase]
    refine ⟨Nat.le_succ _, fun i hi ↦ floor_update_old hi, ?_⟩
    have htop : s.floor s.row ≤ update s.floor (s.row + 1) s.table.readAt (s.row + 1) := by
      rw [update_self]
      exact h.floor_le s.row (Nat.le_refl _)
    exact htop
  | adopt owner value =>
    obtain ⟨hrow, hfloor⟩ := succeed_row owner
    exact extends_of_eq hrow hfloor
  | fail owner => cases owner <;> exact extends_of_eq rfl rfl

theorem Floored.extends_step (h : Floored s) (hstep : s.step environment deployment a = some t) :
    Extends s t := by
  cases step_move hstep with
  | aside | restart => exact extends_of_eq rfl rfl
  | load hmove => cases hmove <;> exact extends_of_eq rfl rfl
  | claim hmem hmove => exact h.extends_claim hmem hmove
  | worker hmove =>
    obtain ⟨_, _, rfl, -⟩ := hmove.eq
    exact extends_of_eq rfl rfl
  | ack _ hmove =>
    obtain ⟨_, _, _, rfl⟩ := hmove.eq
    exact extends_of_eq rfl rfl
  | barrier hmove =>
    obtain ⟨_, _, _, _, -, rfl⟩ := hmove.eq
    exact extends_of_eq rfl rfl

def Covered (s : System) (generation : ℕ) (table : Table) : Prop :=
  generation ≤ s.row ∧ s.floor generation ≤ table.readAt

variable {generation node : ℕ} {worker : Worker}

theorem Extends.covered (h : Extends s t) {table : Table} (hc : s.Covered generation table) :
    t.Covered generation table :=
  ⟨hc.1.trans h.row_le, (h.floor_eq generation hc.1).trans_le hc.2⟩

theorem Floored.covered (h : Floored s) (hle : generation ≤ s.row) : s.Covered generation s.table :=
  ⟨hle, h.floor_le generation hle⟩

/-- The worker serves the generation, has sent an ACK of it, or the database has stored one. -/
def Known (s : System) (node generation : ℕ) : Prop :=
  generation = (s.workers node).store.generation ∨ (node, generation) ∈ s.stored ∨
    ∃ ack ∈ s.acks, ack.node = node ∧ ack.generation = generation

/-- The table that a worker serves covers the generations that are known of it, and so does one
that it is about to serve. -/
structure Keeps (s : System) (knows : ℕ → Prop) (worker : Worker) : Prop where
  known : ∀ generation, knows generation → s.Covered generation worker.store.table
  generated : ∀ generation, worker.tick = .polling (.generated generation) → generation ≤ s.row
  built : ∀ generation table, worker.tick = .polling (.built generation table) →
    s.Covered generation table ∧ ∀ old, knows old → s.Covered old table

def Delivered (s : System) : Prop := ∀ node, s.Keeps (s.Known node) (s.workers node)

theorem Keeps.mono {knows knows' : ℕ → Prop} (h : s.Keeps knows worker)
    (he : Extends s t) (hknows : ∀ generation, knows' generation → knows generation) :
    t.Keeps knows' worker where
  known generation hg := he.covered (h.known generation (hknows generation hg))
  generated generation hg := (h.generated generation hg).trans he.row_le
  built generation table hb := ⟨he.covered (h.built generation table hb).1, fun old hold ↦
      he.covered ((h.built generation table hb).2 old (hknows old hold))⟩

theorem Delivered.of_known (h : Delivered s) (he : Extends s t) (hworkers : t.workers = s.workers)
    (hknown : ∀ node generation, t.Known node generation → s.Known node generation) :
    Delivered t := by
  intro node
  rw [hworkers]
  exact (h node).mono he (hknown node)

theorem known_of_eq (hworkers : t.workers = s.workers) (hacks : t.acks = s.acks)
    (hstored : t.stored = s.stored) (h : t.Known node generation) : s.Known node generation := by
  rwa [Known, hworkers, hacks, hstored] at h

theorem Delivered.setWorker (h : Delivered s) (acks : List Ack)
    (hacks : acks = s.acks ∨ acks = ⟨node, worker.store.generation, none⟩ :: s.acks)
    (hnew : s.Keeps (fun g ↦ g = worker.store.generation ∨ s.Known node g) worker) :
    Delivered { s.setWorker node worker with acks := acks } := by
  have he : Extends s { s.setWorker node worker with acks := acks } := extends_of_eq rfl rfl
  have hacked {x g : ℕ} (hg : ∃ ack ∈ acks, ack.node = x ∧ ack.generation = g) :
      (x = node ∧ g = worker.store.generation) ∨
        ∃ ack ∈ s.acks, ack.node = x ∧ ack.generation = g := by
    obtain ⟨ack, hack, rfl, rfl⟩ := hg
    rcases hacks with rfl | rfl
    · exact .inr ⟨ack, hack, rfl, rfl⟩
    · rcases mem_cons.mp hack with rfl | hold
      · exact .inl ⟨rfl, rfl⟩
      · exact .inr ⟨ack, hold, rfl, rfl⟩
  intro x
  by_cases hx : x = node
  · subst hx
    simp only [System.setWorker, update_self]
    refine hnew.mono he fun g hg ↦ ?_
    simp only [Known, update_self] at hg
    rcases hg with hserved | hstored | hack
    · exact .inl hserved
    · exact .inr (.inr (.inl hstored))
    · rcases hacked hack with ⟨-, hserved⟩ | hold
      · exact .inl hserved
      · exact .inr (.inr (.inr hold))
  · simp only [System.setWorker, update_of_ne hx]
    refine (h x).mono he fun g hg ↦ ?_
    simp only [Known, update_of_ne hx] at hg
    refine hg.imp_right (.imp_right fun hack ↦ ?_)
    exact (hacked hack).resolve_left fun hnode ↦ hx hnode.1

theorem Delivered.workerStep (h : Delivered s) (hfloored : Floored s) {act : WorkerAct}
    (hruns : Runs (.worker node act)) (hmove : WorkerMove s node act t) : Delivered t := by
  have hsame (g : ℕ) (hg : g = (s.workers node).store.generation ∨ s.Known node g) :
      s.Known node g := hg.elim .inl id
  cases hmove with
  | resend =>
    exact h.setWorker _ (.inr rfl) ⟨fun g hg ↦ (h node).known g (hsame g hg), nofun, nofun⟩
  | go _ _ _ htick =>
    refine h.setWorker s.acks (.inl rfl)
      ⟨fun g hg ↦ (h node).known g (hsame g hg), fun _ hg ↦ ?_, fun _ _ hb ↦ ?_⟩
    · exact nomatch htick _ hg
    · exact nomatch htick _ hb
  | generation =>
    refine h.setWorker s.acks (.inl rfl)
      ⟨fun g hg ↦ (h node).known g (hsame g hg), fun g hg ↦ ?_, nofun⟩
    cases hg
    exact hfloored.counter_le
  | build generation htick =>
    refine h.setWorker s.acks (.inl rfl)
      ⟨fun g hg ↦ (h node).known g (hsame g hg), nofun, fun g table hb ↦ ?_⟩
    cases hb
    refine ⟨hfloored.covered ((h node).generated generation htick), fun old hold ↦ ?_⟩
    exact hfloored.covered ((h node).known old (hsame old hold)).1
  | apply persisted generation table htick =>
    obtain ⟨hbuilt, hknown⟩ := (h node).built generation table htick
    refine h.setWorker _ (.inr rfl) ⟨fun g hg ↦ ?_, nofun, nofun⟩
    rcases hg with rfl | hold
    · exact hbuilt
    · exact hknown g hold
  | restart => exact hruns.elim

theorem AckMove.known {ack : Ack} (hmem : ack ∈ s.acks) (hmove : AckMove s ack t)
    (h : t.Known node generation) : s.Known node generation := by
  have herase (hacks : ∃ k ∈ s.acks.erase ack, k.node = node ∧ k.generation = generation) :
      ∃ k ∈ s.acks, k.node = node ∧ k.generation = generation := by
    obtain ⟨k, hk, heq⟩ := hacks
    exact ⟨k, mem_of_mem_erase hk, heq⟩
  cases hmove with
  | accept =>
    refine h.imp_right (.imp_right fun ⟨k, hk, heq⟩ ↦ ?_)
    rcases mem_cons.mp hk with rfl | hold
    · exact ⟨ack, hmem, heq⟩
    · exact herase ⟨k, hold, heq⟩
  | store =>
    refine h.imp_right fun hrest ↦ ?_
    rcases hrest with hstored | hacks
    · rcases mem_cons.mp hstored with hnew | hold
      · obtain ⟨rfl, rfl⟩ := Prod.mk.inj hnew
        exact .inr ⟨ack, hmem, rfl, rfl⟩
      · exact .inl (mem_filter.mp hold).1
    · exact .inr (herase hacks)
  | drop => exact h.imp_right (.imp_right herase)

def others (s : System) : (ℕ → Worker) × List Ack × List (ℕ × ℕ) × Barrier × ℕ :=
  (s.workers, s.acks, s.stored, s.barrier, s.version)

theorem succeed_others (owner : Owner) : (s.succeed owner).others = s.others := by
  cases owner with
  | reload =>
    simp only [succeed]
    split <;> rfl
  | retry => rfl

theorem ClaimMove.others_eq (hmove : ClaimMove s claim t) : t.others = s.others := by
  cases hmove with
  | adopt owner value => exact succeed_others owner
  | fail owner => cases owner <;> rfl
  | read | commit => rfl

theorem Delivered.step (h : Delivered s) (hfloored : Floored s) (hruns : Runs a)
    (hstep : s.step environment deployment a = some t) : Delivered t := by
  have he := hfloored.extends_step hstep
  cases step_move hstep with
  | aside => exact h.of_known he rfl fun _ _ ↦ known_of_eq rfl rfl rfl
  | load hmove =>
    cases hmove <;> exact h.of_known he rfl fun _ _ ↦ known_of_eq rfl rfl rfl
  | claim _ hmove =>
    have hsame := hmove.others_eq
    simp only [others, Prod.mk.injEq] at hsame
    obtain ⟨hworkers, hacks, hstored, -⟩ := hsame
    exact h.of_known he hworkers fun _ _ ↦ known_of_eq hworkers hacks hstored
  | worker hmove => exact h.workerStep hfloored hruns hmove
  | ack hmem hmove =>
    refine h.of_known he ?_ fun _ _ ↦ hmove.known hmem
    obtain ⟨_, _, _, rfl⟩ := hmove.eq
    rfl
  | barrier hmove =>
    obtain ⟨_, _, _, _, -, rfl⟩ := hmove.eq
    exact h.of_known he rfl fun _ _ ↦ known_of_eq rfl rfl rfl
  | restart => exact hruns.elim

theorem delivered_start (start : Start) : Delivered start.system := by
  refine fun node ↦ ⟨fun generation hknown ↦ ⟨?_, Nat.zero_le _⟩, nofun, nofun⟩
  rcases hknown with rfl | hstored | ⟨_, hack, -⟩
  · exact start.stores_le node
  · exact start.stored_le _ hstored
  · exact absurd hack not_mem_nil

end System

end Temps.Routes
