import Temps.Routes.System

namespace Temps.Routes

namespace System

variable {environment deployment node : ℕ} {s t : System} {act : BarrierAct}

inductive LoadMove (s : System) : System → Prop where
  | begin (event : Option (Option ℕ)) (hreload : s.reload = .idle) :
    LoadMove s { s with reload := .reading event s.version }
  | fail (event : Option (Option ℕ)) (readAt : ℕ) (hreload : s.reload = .reading event readAt) :
    LoadMove s { s with reload := .idle }
  | publish (event : Option (Option ℕ)) (readAt : ℕ) (empty : Bool)
      (hreload : s.reload = .reading event readAt) :
    LoadMove s { s with
      table := ⟨s.loads.length + 1, readAt, empty⟩
      loads := ⟨s.loads.length + 1, readAt, empty⟩ :: s.loads
      reload := .published event }
  | claim (event : Option (Option ℕ)) (hreload : s.reload = .published event) :
    LoadMove s { s with
      loaded := true
      reload := .claiming event
      claims := ⟨some .reload, s.counter, .started⟩ :: s.claims }
  | retry (hretry : s.retry = some .sleeping) :
    LoadMove s { s with
      retry := some .claiming
      claims := ⟨some .retry, s.counter, .started⟩ :: s.claims }
  | send (update : Update) (hmem : update ∈ s.outbox) :
    LoadMove s { s with
      outbox := s.outbox.erase update
      inbox := if s.barrier = .none then s.inbox else s.inbox ++ [update] }

theorem loadStep_move {act : LoadAct} (hstep : s.loadStep act = some t) : LoadMove s t := by
  revert hstep
  fun_cases loadStep s act <;> rintro ⟨⟩
  case case1 event hreload => exact .begin event hreload
  case case3 event readAt hreload => exact .fail event readAt hreload
  case case5 empty event readAt hreload => exact .publish event readAt empty hreload
  case case7 event hreload => exact .claim event hreload
  case case9 hretry => exact .retry hretry
  case case11 update hmem => exact .send update hmem

inductive ClaimMove (s : System) (claim : Claim) : System → Prop where
  | read (hphase : claim.phase = .started) :
    ClaimMove s claim (s.withClaim claim { claim with phase := .read s.highestAck })
  | commit (acked : ℕ) (hphase : claim.phase = .read acked) :
    ClaimMove s claim (s.commitClaim claim (claimValue s.row claim.previous acked))
  | adopt (owner : Owner) (value : ℕ) (howner : claim.owner = some owner)
      (hphase : claim.phase = .committed value) :
    ClaimMove s claim (((s.dropClaim claim).adopt value).succeed owner)
  | fail (owner : Owner) (howner : claim.owner = some owner) :
    ClaimMove s claim ((s.withClaim claim { claim with owner := none }).giveUp owner)

theorem claimStep_move {claim : Claim} {act : ClaimAct}
    (hstep : s.claimStep claim act = some t) : ClaimMove s claim t := by
  revert hstep
  fun_cases claimStep s claim act <;> rintro ⟨⟩
  case case1 hphase => exact .read hphase
  case case3 acked hphase _ => exact .commit acked hphase
  case case6 owner value hphase howner => exact .adopt owner value howner hphase
  case case8 owner howner => exact .fail owner howner

inductive WorkerMove (s : System) (node : ℕ) : WorkerAct → System → Prop where
  | resend (htick : (s.workers node).tick = .idle) :
    WorkerMove s node .tick (s.sendAck node (s.workers node) .resending)
  | go (act : WorkerAct) (tick : Tick) (lastAcked : Option ℕ)
      (htick : ∀ request, tick = .polling request → request = .waiting) :
    WorkerMove s node act
      (s.setWorker node { s.workers node with lastAcked := lastAcked, tick := tick })
  | generation (htick : (s.workers node).tick = .polling .waiting) :
    WorkerMove s node .generation
      (s.setWorker node { s.workers node with tick := .polling (.generated s.counter) })
  | build (generation : ℕ) (htick : (s.workers node).tick = .polling (.generated generation)) :
    WorkerMove s node .build
      (s.setWorker node { s.workers node with tick := .polling (.built generation s.table) })
  | apply (persisted : Bool) (generation : ℕ) (table : Table)
      (htick : (s.workers node).tick = .polling (.built generation table)) :
    WorkerMove s node (.deliver persisted) (s.sendAck node { s.workers node with
      store := ⟨generation, table⟩
      disk := if persisted then some ⟨generation, table⟩ else (s.workers node).disk } .acking)
  | restart :
    WorkerMove s node .restart (s.setWorker node { s.workers node with
      store := (s.workers node).disk.getD .fresh
      lastAcked := none
      tick := .idle })

theorem replacement_built {generation : ℕ} {table : Table} {store : Store}
    (htick : (s.workers node).tick = .polling (.built generation table))
    (hstore : s.replacement node = some store) : store = ⟨generation, table⟩ := by
  rw [replacement, htick] at hstore
  exact (Option.some.inj (Option.ite_none_right_eq_some.mp hstore).2).symm

theorem workerStep_move {act : WorkerAct} (hstep : s.workerStep node act = some t) :
    WorkerMove s node act t := by
  revert hstep
  fun_cases workerStep s node act <;> rintro ⟨⟩
  case case1 htick _ => exact .resend htick
  case case2 =>
    exact .go .tick (.polling .waiting) (s.workers node).lastAcked fun _ h ↦
      (Tick.polling.inj h).symm
  case case4 ok _ =>
    exact .go (.acked ok) (.polling .waiting) _ fun _ h ↦ (Tick.polling.inj h).symm
  case case5 ok _ => exact .go (.acked ok) .idle _ nofun
  case case7 htick => exact .generation htick
  case case9 generation htick => exact .build generation htick
  case case11 => exact .go .lose .idle (s.workers node).lastAcked nofun
  case case13 persisted generation table htick store hstore =>
    obtain rfl := replacement_built htick hstore
    exact .apply persisted generation table htick
  case case14 persisted _ _ _ _ =>
    exact .go (.deliver persisted) .idle (s.workers node).lastAcked nofun
  case case16 => exact .restart

theorem WorkerMove.eq {act : WorkerAct} (hmove : WorkerMove s node act t) :
    ∃ worker acks, t = { s with
        workers := Function.update s.workers node worker
        acks := acks } ∧
      (acks = s.acks ∨ acks = ⟨node, worker.store.generation, none⟩ :: s.acks) := by
  cases hmove with
  | resend | apply => exact ⟨_, _, rfl, .inr rfl⟩
  | go | generation | build | restart => exact ⟨_, _, rfl, .inl rfl⟩

inductive AckMove (s : System) (ack : Ack) : System → Prop where
  | accept (hle : ack.generation ≤ s.counter) :
    AckMove s ack { s with acks := { ack with accepted := some s.epoch } :: s.acks.erase ack }
  | store (epoch : ℕ) (haccepted : ack.accepted = some epoch) :
    AckMove s ack { s with
      acks := s.acks.erase ack
      stored := (ack.node, ack.generation) :: s.stored.filter (·.1 ≠ ack.node)
      ackLog := (epoch, ack.generation) :: s.ackLog }
  | drop : AckMove s ack { s with acks := s.acks.erase ack }

theorem ackStep_move {ack : Ack} {act : AckAct} (hstep : s.ackStep ack act = some t) :
    AckMove s ack t := by
  revert hstep
  fun_cases ackStep s ack act <;> rintro ⟨⟩
  case case1 _ hle => exact .accept hle
  case case2 | case6 => exact .drop
  case case4 epoch haccepted => exact .store epoch haccepted

theorem AckMove.eq {ack : Ack} (hmove : AckMove s ack t) :
    ∃ acks stored ackLog, t = { s with acks := acks, stored := stored, ackLog := ackLog } := by
  cases hmove <;> exact ⟨_, _, _, rfl⟩

inductive BarrierMove (environment deployment : ℕ) (s : System) : BarrierAct → System → Prop where
  | subscribe (hbarrier : s.barrier = .none) :
    BarrierMove environment deployment s .subscribe { s with barrier := .subscribed, inbox := [] }
  | promote (hbarrier : s.barrier = .subscribed) :
    BarrierMove environment deployment s .promote { s with
      version := s.version + 1
      currentDeployment := deployment
      barrier := .promoted (s.version + 1) }
  | receive (readable : Bool) (mark : ℕ) (update : Update) (rest : List Update) (barrier : Barrier)
      (hbarrier : s.barrier = .promoted mark) (hinbox : s.inbox = update :: rest)
      (hnext : barrier = .promoted mark ∨ barrier = .failed ∨
        barrier = .ready mark ∧ concerns environment update.environment = true) :
    BarrierMove environment deployment s (.receive readable)
      { s with inbox := rest, barrier := barrier }
  | lag (update : Update) (rest : List Update) (hinbox : s.inbox = update :: rest) :
    BarrierMove environment deployment s .lag { s with inbox := rest }
  | readTarget (mark : ℕ) (hbarrier : s.barrier = .ready mark) :
    BarrierMove environment deployment s .readTarget { s with barrier := .targeted mark s.row }
  | listNodes (mark target : ℕ) (hbarrier : s.barrier = .targeted mark target) :
    BarrierMove environment deployment s .listNodes
      { s with barrier := .listed mark target s.active }
  | check (mark target : ℕ) (nodes : List ℕ) (hbarrier : s.barrier = .listed mark target nodes)
      (hacked : ∀ node ∈ nodes, (s.storedOf node).any (target ≤ ·) = true) :
    BarrierMove environment deployment s .check { s with barrier := .passed mark nodes }

theorem verify_cases (mark : ℕ) (update : Update) :
    s.verify environment deployment mark update = .promoted mark ∨
      s.verify environment deployment mark update = .failed ∨
      s.verify environment deployment mark update = .ready mark := by
  unfold verify
  split
  · exact .inr (.inr rfl)
  · split
    · exact .inr (.inl rfl)
    · exact .inl rfl

theorem barrierStep_move (hstep : s.barrierStep environment deployment act = some t) :
    BarrierMove environment deployment s act t := by
  revert hstep
  fun_cases barrierStep environment deployment s act <;> rintro ⟨⟩
  case case1 hbarrier => exact .subscribe hbarrier
  case case3 hbarrier => exact .promote hbarrier
  case case5 readable mark update rest hinbox hbarrier =>
    refine .receive readable mark update rest _ hbarrier hinbox ?_
    split
    case isTrue hread =>
      have hconcerns := (Bool.and_eq_true_iff.mp hread).1
      exact (verify_cases mark update).imp_right (.imp_right fun h ↦ ⟨h, hconcerns⟩)
    case isFalse => exact .inl rfl
  case case7 update rest hinbox => exact .lag update rest hinbox
  case case9 mark hbarrier => exact .readTarget mark hbarrier
  case case11 mark target hbarrier => exact .listNodes mark target hbarrier
  case case13 mark target nodes hbarrier hall =>
    exact .check mark target nodes hbarrier (List.all_eq_true.mp hall)

theorem BarrierMove.eq (hmove : BarrierMove environment deployment s act t) :
    ∃ version currentDeployment barrier inbox, s.version ≤ version ∧ t = { s with
      version := version
      currentDeployment := currentDeployment
      barrier := barrier
      inbox := inbox } := by
  cases hmove with
  | promote => exact ⟨_, _, _, _, Nat.le_succ _, rfl⟩
  | subscribe | receive | lag | readTarget | listNodes | check =>
    exact ⟨_, _, _, _, Nat.le_refl _, rfl⟩

/-- What an act does, by the part of the system that it belongs to. -/
inductive Move (environment deployment : ℕ) (s : System) : Act → System → Prop where
  | aside {a : Act} (version currentDeployment : ℕ) (active : List ℕ) (locals : ℕ → ℕ)
      (hversion : s.version ≤ version) :
    Move environment deployment s a { s with
      version := version
      currentDeployment := currentDeployment
      active := active
      locals := locals }
  | load {act : LoadAct} {t : System} (hmove : LoadMove s t) :
    Move environment deployment s (.load act) t
  | claim {claim : Claim} {act : ClaimAct} {t : System} (hmem : claim ∈ s.claims)
      (hmove : ClaimMove s claim t) :
    Move environment deployment s (.claim claim act) t
  | worker {node : ℕ} {act : WorkerAct} {t : System} (hmove : WorkerMove s node act t) :
    Move environment deployment s (.worker node act) t
  | ack {ack : Ack} {act : AckAct} {t : System} (hmem : ack ∈ s.acks) (hmove : AckMove s ack t) :
    Move environment deployment s (.ack ack act) t
  | barrier {act : BarrierAct} {t : System} (hmove : BarrierMove environment deployment s act t) :
    Move environment deployment s (.barrier act) t
  | restart : Move environment deployment s .restart s.restarted

theorem step_move {a : Act} (hstep : s.step environment deployment a = some t) :
    Move environment deployment s a t := by
  cases a with
  | write other => cases other <;> cases hstep <;> exact .aside _ _ _ _ (Nat.le_succ _)
  | nodes | localAdvance =>
    cases hstep
    exact .aside _ _ _ _ (Nat.le_refl _)
  | load act => exact .load (loadStep_move hstep)
  | claim claim act =>
    obtain ⟨hmem, hclaim⟩ := Option.ite_none_right_eq_some.mp hstep
    exact .claim hmem (claimStep_move hclaim)
  | worker node act => exact .worker (workerStep_move hstep)
  | ack ack act =>
    obtain ⟨hmem, hack⟩ := Option.ite_none_right_eq_some.mp hstep
    exact .ack hmem (ackStep_move hack)
  | barrier act => exact .barrier (barrierStep_move hstep)
  | restart =>
    cases hstep
    exact .restart

end System

end Temps.Routes
