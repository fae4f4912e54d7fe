import DistLabs.Lib.Answers
import DistLabs.Raft.Interface

/-!
# A service on top of `raft.go`

`kvraft`, `shardctrler` and `shardkv` use Raft in one way: every server runs an `applier` that
receives from `applyChan`, executes commands, installs snapshots, and may hand a snapshot of its
state to Raft after a command. `Host` is what differs between the services. A `ReplicaGroup` is a
cluster with the server of a service on top of each of its members, and its steps are those of the
cluster and of the appliers.

A channel send and its receive are one step. From there on the applier works under the lock of the
service; it executes the command in one step and calls `rf.Snapshot` in another one, since Raft
goes on in between. A restart starts the service from the snapshot that the `Persister` has.

`Implements` says what the code of a service has to do with single messages so that all servers
agree: they are always at states of one sequence of executed commands (`Agree`).
-/

namespace DistLabs

open Lib

variable {n : Nat} {τ σ κ α ρ : Type}

/-! ## The code of a service -/

/-- How a service uses Raft. `τ` is the state of one of its servers. -/
structure Host (τ κ α : Type) where
  /-- A server that is started with the snapshot of the `Persister`. -/
  start : Bytes → τ
  /-- The body of the loop of `applier` up to the call of `rf.Snapshot`: the new state, and the
  result if a command was executed. `none` is a panic. -/
  applier : τ → ApplyMsg κ → Option (τ × Option α)
  /-- `encodeState`, for a service that takes snapshots. -/
  encodeState : τ → Option Bytes

/-- Where an applier is. -/
inductive ApplierPc (κ : Type) where
  | receiving
  | received (msg : ApplyMsg κ)
  /-- It has executed the command of an index and may now call `rf.Snapshot`. -/
  | executed (index : Nat)
  deriving DecidableEq

/-- A server of the service. `applied` is a history variable: the largest index it has dealt
with. -/
structure Replica (τ κ : Type) where
  state : τ
  pc : ApplierPc κ := .receiving
  applied : Nat := 0

/-- A cluster with a server of the service on every member. -/
structure ReplicaGroup (n : Nat) (τ κ : Type) where
  cluster : Cluster n κ
  replicas : Fin n → Replica τ κ

/-- The steps of a group. -/
inductive GroupAction (n : Nat) (κ : Type) where
  /-- Raft does something that the service takes no part in. -/
  | raft (a : Action n κ)
  /-- The service calls `rf.Start`. -/
  | start (i : Fin n) (command : κ) (grow : Nat)
  /-- `apply` sends a command to the applier. -/
  | sendCommand (i : Fin n)
  /-- An `InstallSnapshot` handler sends a snapshot to the applier. -/
  | sendSnapshot (i : Fin n) (k : Nat)
  /-- The applier deals with the message that it has received. -/
  | apply (i : Fin n)
  /-- The applier calls `rf.Snapshot`. -/
  | snapshot (i : Fin n) (grow : Nat)
  /-- The applier does not call it. -/
  | proceed (i : Fin n)
  /-- A server crashes and is started again. -/
  | restart (i : Fin n) (grow : Nat)

/-- The steps of a cluster that the service takes no part in. -/
def Action.isInternal : Action n κ → Bool
  | .start .. | .snapshot .. | .sendCommand .. | .sendSnapshot .. | .restart .. => false
  | .electionTimeout .. | .heartBeat .. | .replicate .. | .requestVote .. | .requestVoteReply ..
  | .appendEntries .. | .appendEntriesReply .. | .installSnapshot .. | .installSnapshotReply ..
  | .loseVote .. | .loseAppend .. | .loseSnap .. | .takeBatch .. | .kill .. => true

namespace ReplicaGroup

section
variable (host : Host τ κ α) (g : ReplicaGroup n τ κ)

/-- All servers were started with an empty `Persister`. -/
def init : ReplicaGroup n τ κ := ⟨.init, fun _ => { state := host.start [] }⟩

/-- Give a replica a new state. -/
def setReplica (i : Fin n) (r : Replica τ κ) : ReplicaGroup n τ κ :=
  { g with replicas := Function.update g.replicas i r }

/-- Give the cluster a new state. -/
def setCluster (cluster : Cluster n κ) : ReplicaGroup n τ κ := { g with cluster }

/-- A goroutine of Raft sends on `applyChan`, and the applier receives. -/
def receive (i : Fin n) (a : Action n κ) : Option (ReplicaGroup n τ κ) := do
  let r := g.replicas i
  match r.pc with
  | .receiving => do
    let cluster ← g.cluster.step a
    let msg ← (cluster.servers i).delivered.getLast?
    return (g.setReplica i { r with pc := .received msg }).setCluster cluster
  | _ => none

/-- The applier deals with the message that it has received; the result is that of the command. -/
def apply (i : Fin n) : Option (ReplicaGroup n τ κ × Option α) := do
  let r := g.replicas i
  match r.pc with
  | .received msg => do
    let (state, res) ← host.applier r.state msg
    let pc := if res.isSome then .executed msg.index else .receiving
    return (g.setReplica i { state, pc, applied := max r.applied msg.index }, res)
  | _ => none

/-- One step; `none` when the action is not enabled, or panics. -/
def step : GroupAction n κ → Option (ReplicaGroup n τ κ)
  | .raft a => if a.isInternal then (g.cluster.step a).map g.setCluster else none
  | .start i command grow => (g.cluster.step (.start i (some command) grow)).map g.setCluster
  | .sendCommand i => g.receive i (.sendCommand i)
  | .sendSnapshot i k => g.receive i (.sendSnapshot i k)
  | .apply i => (g.apply host i).map (·.1)
  | .snapshot i grow => do
    let r := g.replicas i
    match r.pc with
    | .executed index => do
      let b ← host.encodeState r.state
      let cluster ← g.cluster.step (.snapshot i index b grow)
      return (g.setReplica i { r with pc := .receiving }).setCluster cluster
    | _ => none
  | .proceed i =>
    let r := g.replicas i
    match r.pc with
    | .executed _ => some (g.setReplica i { r with pc := .receiving })
    | _ => none
  | .restart i grow => do
    let cluster ← g.cluster.step (.restart i grow)
    let server := cluster.servers i
    return (g.setReplica i
      { state := host.start server.raft.persister.snapshot,
        applied := server.startIndex }).setCluster
        cluster

/-- No replication goroutine sends after its server entered a later term, and of the messages about
to be sent on `applyChan` the one with the smallest index goes first. -/
def Orderly : GroupAction n κ → Prop
  | .raft a => NoStaleSend g.cluster a
  | .sendCommand i => InOrder g.cluster (.sendCommand i)
  | .sendSnapshot i k => InOrder g.cluster (.sendSnapshot i k)
  | _ => True

instance decidableOrderly : (a : GroupAction n κ) → Decidable (g.Orderly a)
  | .raft a => inferInstanceAs (Decidable (NoStaleSend g.cluster a))
  | .sendCommand i => inferInstanceAs (Decidable (InOrder g.cluster (.sendCommand i)))
  | .sendSnapshot i k => inferInstanceAs (Decidable (InOrder g.cluster (.sendSnapshot i k)))
  | .start .. | .apply .. | .snapshot .. | .proceed .. | .restart .. => isTrue trivial

end

/-! ## What a step can do -/

/-- The steps, one by one. -/
inductive Steps (host : Host τ κ α) (g : ReplicaGroup n τ κ) :
    GroupAction n κ → ReplicaGroup n τ κ → Prop
  | raft {a : Action n κ} {c' : Cluster n κ} (hint : a.isInternal = true)
      (hst : g.cluster.step a = some c') : Steps host g (.raft a) (g.setCluster c')
  | start {i : Fin n} {command : κ} {grow : Nat} {c' : Cluster n κ}
      (hst : g.cluster.step (.start i (some command) grow) = some c') :
      Steps host g (.start i command grow) (g.setCluster c')
  | sendCommand {i : Fin n} {c' : Cluster n κ} {msg : ApplyMsg κ}
      (hpc : (g.replicas i).pc = .receiving) (hst : g.cluster.step (.sendCommand i) = some c')
      (hmsg : (c'.servers i).delivered.getLast? = some msg) :
      Steps host g (.sendCommand i)
        ((g.setReplica i { g.replicas i with pc := .received msg }).setCluster c')
  | sendSnapshot {i : Fin n} {k : Nat} {c' : Cluster n κ} {msg : ApplyMsg κ}
      (hpc : (g.replicas i).pc = .receiving) (hst : g.cluster.step (.sendSnapshot i k) = some c')
      (hmsg : (c'.servers i).delivered.getLast? = some msg) :
      Steps host g (.sendSnapshot i k)
        ((g.setReplica i { g.replicas i with pc := .received msg }).setCluster c')
  | apply {i : Fin n} {msg : ApplyMsg κ} {state : τ} {res : Option α}
      (hpc : (g.replicas i).pc = .received msg)
      (happ : host.applier (g.replicas i).state msg = some (state, res)) :
      Steps host g (.apply i) (g.setReplica i
        { state, pc := if res.isSome then .executed msg.index else .receiving
          applied := max (g.replicas i).applied msg.index })
  | snapshot {i : Fin n} {grow index : Nat} {b : Bytes} {c' : Cluster n κ}
      (hpc : (g.replicas i).pc = .executed index)
      (hb : host.encodeState (g.replicas i).state = some b)
      (hst : g.cluster.step (.snapshot i index b grow) = some c') :
      Steps host g (.snapshot i grow)
        ((g.setReplica i { g.replicas i with pc := .receiving }).setCluster c')
  | proceed {i : Fin n} {index : Nat} (hpc : (g.replicas i).pc = .executed index) :
      Steps host g (.proceed i) (g.setReplica i { g.replicas i with pc := .receiving })
  | restart {i : Fin n} {grow : Nat} {c' : Cluster n κ}
      (hst : g.cluster.step (.restart i grow) = some c') :
      Steps host g (.restart i grow) ((g.setReplica i
        { state := host.start (c'.servers i).raft.persister.snapshot
          applied := (c'.servers i).startIndex }).setCluster c')

variable {host : Host τ κ α} {g g' : ReplicaGroup n τ κ}

/-- What it takes to receive a message. -/
theorem receive_cases {i : Fin n} {a : Action n κ} (hst : g.receive i a = some g') :
    ∃ c' msg, (g.replicas i).pc = .receiving ∧ g.cluster.step a = some c' ∧
      (c'.servers i).delivered.getLast? = some msg ∧
      g' = (g.setReplica i { g.replicas i with pc := .received msg }).setCluster c' := by
  simp only [receive] at hst
  split at hst
  · next hpc =>
    simp only [Option.bind_eq_bind, Option.bind_eq_some_iff] at hst
    obtain ⟨c', hst, msg, hmsg, heq⟩ := hst
    cases heq
    exact ⟨c', msg, hpc, hst, hmsg, rfl⟩
  · cases hst

/-- What it takes to deal with a message. -/
theorem apply_cases {i : Fin n} {res : Option α} (hst : g.apply host i = some (g', res)) :
    ∃ msg state, (g.replicas i).pc = .received msg ∧
      host.applier (g.replicas i).state msg = some (state, res) ∧
      g' = g.setReplica i { state, pc := if res.isSome then .executed msg.index else .receiving
                            applied := max (g.replicas i).applied msg.index } := by
  simp only [apply] at hst
  split at hst
  · next msg hpc =>
    simp only [Option.bind_eq_bind, Option.bind_eq_some_iff, Prod.exists] at hst
    obtain ⟨state, res, happ, heq⟩ := hst
    cases heq
    exact ⟨msg, state, hpc, happ, rfl⟩
  · cases hst

/-- A step of a group is one of those that `Steps` lists. -/
theorem step_cases {a : GroupAction n κ} (hst : g.step host a = some g') : Steps host g a g' := by
  cases a with
  | raft a =>
    simp only [step] at hst
    split at hst
    · next hint =>
      obtain ⟨c', hc, rfl⟩ := Option.map_eq_some_iff.1 hst
      exact .raft hint hc
    · cases hst
  | start i command grow =>
    obtain ⟨c', hc, rfl⟩ := Option.map_eq_some_iff.1 hst
    exact .start hc
  | sendCommand i =>
    obtain ⟨c', msg, hpc, hc, hmsg, rfl⟩ := receive_cases hst
    exact .sendCommand hpc hc hmsg
  | sendSnapshot i k =>
    obtain ⟨c', msg, hpc, hc, hmsg, rfl⟩ := receive_cases hst
    exact .sendSnapshot hpc hc hmsg
  | apply i =>
    obtain ⟨⟨g', res⟩, happly, rfl⟩ := Option.map_eq_some_iff.1 hst
    obtain ⟨msg, state, hpc, happ, rfl⟩ := apply_cases happly
    exact .apply hpc happ
  | snapshot i grow =>
    simp only [step] at hst
    split at hst
    · next index hpc =>
      simp only [Option.bind_eq_bind, Option.bind_eq_some_iff] at hst
      obtain ⟨b, hb, c', hst, heq⟩ := hst
      cases heq
      exact .snapshot hpc hb hst
    · cases hst
  | proceed i =>
    simp only [step] at hst
    split at hst
    · next index hpc =>
      cases hst
      exact .proceed hpc
    · cases hst
  | restart i grow =>
    simp only [step, Option.bind_eq_bind, Option.bind_eq_some_iff] at hst
    obtain ⟨c', hst, heq⟩ := hst
    cases heq
    exact .restart hst

end ReplicaGroup

/-! ## What the code of a service has to do -/

/-- The code of a service executes commands as the machine `m` does. `Rel t k s` says that a server
`t` which has dealt with the messages up to index `k` is in state `s` of the machine. -/
structure Host.Implements (host : Host τ κ α) (m : Machine σ κ α ρ) (Rel : τ → Nat → σ → Prop) :
    Prop where
  /-- A server that is started without a snapshot. -/
  start : Rel (host.start []) 0 m.init
  /-- A server that is started with the snapshot that another one took. -/
  restore : ∀ {t k s b}, Rel t k s → host.encodeState t = some b → Rel (host.start b) k s
  /-- The next command is executed. -/
  command : ∀ {t k s op term t' res}, Rel t k s →
    host.applier t (.command (some op) (k + 1) term) = some (t', res) →
    ∃ s' a, m.execute s op = some (s', a) ∧ res = some a ∧ Rel t' (k + 1) s'
  /-- A later snapshot is installed. -/
  install : ∀ {t k s t₀ j s₀ b term t' res}, Rel t k s → k < j → Rel t₀ j s₀ →
    host.encodeState t₀ = some b → host.applier t (.snapshot b term j) = some (t', res) →
    res = none ∧ Rel t' j s₀

/-! ## Agreement -/

section
variable {host : Host τ κ α} {m : Machine σ κ α ρ} {Rel : τ → Nat → σ → Prop}
  {log : List (ServiceEntry κ)} {g g' : ReplicaGroup n τ κ} {i : Fin n}

/-- The index of the last message that a server's service received, or that of the snapshot it was
started from. -/
def Server.received (s : Server n κ) : Nat := lastIndex ApplyMsg.index s.startIndex s.delivered

/-- What an applier has received and dealt with. -/
def ApplierOK (trace : List (Event n κ)) (i : Fin n) (received applied : Nat) : ApplierPc κ → Prop
  | .receiving => received = applied
  | .received msg => received = msg.index ∧ .apply i msg ∈ trace ∧ msg.Continues applied
  | .executed index => received = applied ∧ index = applied

/-- A server is in the state after the first `applied` entries of the log. -/
structure ReplicaOK (m : Machine σ κ α ρ) (Rel : τ → Nat → σ → Prop) (log : List (ServiceEntry κ))
    (c : Cluster n κ) (i : Fin n) (r : Replica τ κ) : Prop where
  le : r.applied ≤ log.length
  state : ∃ s, m.stateAt log r.applied = some s ∧ Rel r.state r.applied s
  pc : ApplierOK c.trace i (c.servers i).received r.applied r.pc

/-- A replica has dealt with nothing that it has not received. -/
theorem ReplicaOK.applied_le {c : Cluster n κ} {r : Replica τ κ} (h : ReplicaOK m Rel log c i r) :
    r.applied ≤ (c.servers i).received := by
  have hok := h.pc
  cases hpc : r.pc with
  | receiving =>
    rw [hpc] at hok
    exact (show _ = _ from hok).ge
  | received msg =>
    rw [hpc] at hok
    obtain ⟨heq, _, hcont⟩ := hok
    exact heq ▸ hcont.lt.le
  | executed index =>
    rw [hpc] at hok
    exact hok.1.ge

/-- Some server had encoded the state after the first `index` entries. -/
def SavedAt (host : Host τ κ α) (m : Machine σ κ α ρ) (Rel : τ → Nat → σ → Prop)
    (log : List (ServiceEntry κ)) (index : Nat) (b : Bytes) : Prop :=
  index ≤ log.length ∧ ∃ s t, m.stateAt log index = some s ∧ Rel t index s ∧
    host.encodeState t = some b

/-- The servers have executed prefixes of the log, whose entries were all sent to services as the
commands of their indices, and snapshots are states after prefixes of the log. -/
structure Agree (host : Host τ κ α) (m : Machine σ κ α ρ) (Rel : τ → Nat → σ → Prop)
    (log : List (ServiceEntry κ)) (g : ReplicaGroup n τ κ) : Prop where
  quiet : Quiet g.cluster
  replica : ∀ i, ReplicaOK m Rel log g.cluster i (g.replicas i)
  logged : ∀ (k : Nat) (e : ServiceEntry κ), log[k]? = some e →
    ∃ i, .apply i (.command (some e.op) (k + 1) e.term) ∈ g.cluster.trace
  started : ∀ i command index term, .start i command index term ∈ g.cluster.trace → command.isSome
  saved : ∀ i index b, .snapshot i index b ∈ g.cluster.trace → SavedAt host m Rel log index b

/-- A snapshot stays right when the log grows. -/
theorem SavedAt.append {index : Nat} {b : Bytes} (h : SavedAt host m Rel log index b)
    (l : List (ServiceEntry κ)) : SavedAt host m Rel (log ++ l) index b := by
  obtain ⟨hle, s, t, hs, hrel, hb⟩ := h
  refine ⟨hle.trans ?_, s, t, ?_, hrel, hb⟩
  · rw [List.length_append]
    omega
  · rw [Service.stateAt_grown (List.prefix_append _ _) hle, hs]

/-- In the beginning all replicas agree with the empty log. -/
theorem agree_init (himp : host.Implements m Rel) :
    Agree host m Rel [] (ReplicaGroup.init host : ReplicaGroup n τ κ) where
  quiet := .init
  replica _ := ⟨le_rfl, ⟨m.init, rfl, himp.start⟩, rfl⟩
  logged _ _ h := by cases h
  started _ _ _ _ h := by cases h
  saved _ _ _ h := by cases h

/-- The events that the cluster adds do not take away what holds of an applier. -/
theorem ApplierOK.mono {trace trace' : List (Event n κ)} {received applied : Nat}
    {pc : ApplierPc κ} (hsub : trace ⊆ trace') (h : ApplierOK trace i received applied pc) :
    ApplierOK trace' i received applied pc := by
  cases pc with
  | receiving | executed => exact h
  | received msg => exact ⟨h.1, hsub h.2.1, h.2.2⟩

/-! ### Steps of the cluster -/

/-- A step of the cluster that sends nothing to services and restarts none of them. -/
theorem ReplicaOK.kept {c c' : Cluster n κ} {r : Replica τ κ} (h : ReplicaOK m Rel log c i r)
    (hsub : c.trace ⊆ c'.trace) (hdel : (c'.servers i).delivered = (c.servers i).delivered)
    (hstart : (c'.servers i).startIndex = (c.servers i).startIndex) :
    ReplicaOK m Rel log c' i r := by
  refine ⟨h.le, h.state, ?_⟩
  have hreceived : (c'.servers i).received = (c.servers i).received := by
    rw [Server.received, hdel, hstart, Server.received]
  rw [hreceived]
  exact h.pc.mono hsub

/-- A step of the cluster, with what it may do to servers of the service. -/
theorem Agree.setCluster (h : Agree host m Rel log g) {a : Action n κ} {c' : Cluster n κ}
    (hquiet : Quiet c') (hst : g.cluster.step a = some c')
    (hreplica : ∀ i, ReplicaOK m Rel log c' i (g'.replicas i)) (hg' : g'.cluster = c')
    (hstart : ∀ i command grow, a = .start i command grow → command.isSome)
    (hsaved : ∀ i index b grow, a = .snapshot i index b grow → SavedAt host m Rel log index b) :
    Agree host m Rel log g' := by
  have hst' := DistLabs.step_cases hst
  subst hg'
  refine ⟨hquiet, hreplica, fun k e he => ?_, fun i command index term hmem => ?_,
    fun i index b hmem => ?_⟩
  · obtain ⟨i, hi⟩ := h.logged k e he
    exact ⟨i, hst'.trace_subset hi⟩
  · rcases hst'.new_event hmem with hmem | hnew
    · exact h.started i command index term hmem
    · cases hnew with
      | start => exact hstart _ _ _ rfl
  · rcases hst'.new_event hmem with hmem | hnew
    · exact h.saved i index b hmem
    · cases hnew with
      | snapshot => exact hsaved _ _ _ _ rfl

/-- What Raft does without the service. -/
theorem Quiet.inOrder_of_isInternal {c : Cluster n κ} (h : Quiet c) {a : Action n κ}
    (hint : a.isInternal = true) : InOrder c a := by
  cases a with
  | takeBatch i => exact h.takeBatch_inOrder i
  | sendCommand | sendSnapshot => cases hint
  | _ => trivial

/-- A server of the service that the step does not reach. -/
theorem Agree.replica_kept (h : Agree host m Rel log g) {a : Action n κ} {c' : Cluster n κ}
    (hst : g.cluster.step a = some c') (hne : ¬ a.Reaches i) :
    ReplicaOK m Rel log c' i (g.replicas i) := by
  have hst' := DistLabs.step_cases hst
  obtain ⟨H, hs⟩ := h.quiet.exists_sim
  cases hst'.stream_step hs i with
  | kept _ hdel hstart => exact (h.replica i).kept hst'.trace_subset hdel hstart
  | sent _ ha =>
    refine absurd ?_ hne
    rcases ha with rfl | ⟨k, rfl⟩ <;> rfl
  | restarted grow ha =>
    subst ha
    exact absurd rfl hne

/-- Internal steps of Raft send nothing to a service. -/
theorem Action.not_reaches_of_isInternal {a : Action n κ} (hint : a.isInternal = true)
    (i : Fin n) :
    ¬ a.Reaches i := by
  cases a with
  | sendCommand | sendSnapshot | restart => cases hint
  | _ => exact id

/-- An internal step of Raft. -/
theorem Agree.raft (h : Agree host m Rel log g) {a : Action n κ} {c' : Cluster n κ}
    (hint : a.isInternal = true) (hok : NoStaleSend g.cluster a)
    (hst : g.cluster.step a = some c') :
    Agree host m Rel log (g.setCluster c') := by
  refine h.setCluster (h.quiet.step hok (h.quiet.inOrder_of_isInternal hint) hst) hst
    (fun i => h.replica_kept hst (a.not_reaches_of_isInternal hint i)) rfl ?_ ?_
  · rintro i command grow rfl
    cases hint
  · rintro i index b grow rfl
    cases hint

/-- A server gives a command to Raft. -/
theorem Agree.start (h : Agree host m Rel log g) {command : κ} {grow : Nat} {c' : Cluster n κ}
    (hst : g.cluster.step (.start i (some command) grow) = some c') :
    Agree host m Rel log (g.setCluster c') := by
  refine h.setCluster (h.quiet.step (a := .start i (some command) grow) trivial trivial hst) hst
    (fun i => h.replica_kept hst id) rfl ?_ fun _ _ _ _ ha => by cases ha
  intro i command grow ha
  cases ha
  rfl

/-- The replicas after a step of the one on server `i`. -/
theorem replicaOK_update {c' : Cluster n κ} {r : Replica τ κ} (hr : ReplicaOK m Rel log c' i r)
    (h : ∀ j, j ≠ i → ReplicaOK m Rel log c' j (g.replicas j)) (j : Fin n) :
    ReplicaOK m Rel log c' j (Function.update g.replicas i r j) :=
  (Function.forall_update_iff g.replicas fun j r => ReplicaOK m Rel log c' j r).2 ⟨hr, h⟩ j

/-- The applier receives. -/
theorem Agree.receive (h : Agree host m Rel log g) {a : Action n κ} {c' : Cluster n κ}
    {msg : ApplyMsg κ} (ha : a = .sendCommand i ∨ ∃ k, a = .sendSnapshot i k)
    (hpc : (g.replicas i).pc = .receiving) (hin : InOrder g.cluster a)
    (hst : g.cluster.step a = some c') (hmsg : (c'.servers i).delivered.getLast? = some msg) :
    Agree host m Rel log
      ((g.setReplica i { g.replicas i with pc := .received msg }).setCluster c') := by
  have hst' := DistLabs.step_cases hst
  obtain ⟨H, hs⟩ := h.quiet.exists_sim
  have hstale : NoStaleSend g.cluster a := by
    rcases ha with rfl | ⟨k, rfl⟩ <;> trivial
  have hreaches : ∀ j, a.Reaches j ↔ i = j := by
    rcases ha with rfl | ⟨k, rfl⟩ <;> exact fun _ => Iff.rfl
  have hquiet := h.quiet.step hstale hin hst
  have hi := h.replica i
  have hreceived : (g.cluster.servers i).received = (g.replicas i).applied := by
    have hok := hi.pc
    rw [hpc] at hok
    exact hok
  refine h.setCluster hquiet hst (replicaOK_update ⟨hi.le, hi.state, ?_⟩ fun j hj =>
    h.replica_kept hst fun hr => hj ((hreaches j).1 hr).symm) rfl ?_ ?_
  · cases hst'.stream_step hs i with
    | kept hne => exact absurd ((hreaches i).2 rfl) hne
    | sent msg' _ hdel hstart _ htrace =>
      rw [hdel, List.getLast?_concat] at hmsg
      cases hmsg
      refine ⟨?_, htrace, ?_⟩
      · rw [Server.received, hdel, lastIndex_append]
        rfl
      · have hcont := hquiet.continues hdel
        rw [hstart] at hcont
        rw [← hreceived]
        exact hcont
    | restarted _ hr => rcases ha with rfl | ⟨k, rfl⟩ <;> cases hr
  · rintro i command grow rfl
    rcases ha with ha | ⟨k, ha⟩ <;> cases ha
  · rintro i index b grow rfl
    rcases ha with ha | ⟨k, ha⟩ <;> cases ha

/-- The applier hands over a snapshot of its state. -/
theorem Agree.snapshot (h : Agree host m Rel log g) {grow index : Nat} {b : Bytes}
    {c' : Cluster n κ} (hpc : (g.replicas i).pc = .executed index)
    (hb : host.encodeState (g.replicas i).state = some b)
    (hst : g.cluster.step (.snapshot i index b grow) = some c') :
    Agree host m Rel log
      ((g.setReplica i { g.replicas i with pc := .receiving }).setCluster c') := by
  have hi := h.replica_kept hst (i := i) id
  have hok := hi.pc
  rw [hpc] at hok
  obtain ⟨hreceived, rfl⟩ := hok
  refine h.setCluster (h.quiet.step (a := .snapshot i _ b grow) trivial trivial hst) hst
    (replicaOK_update ⟨hi.le, hi.state, hreceived⟩ fun j _ => h.replica_kept hst id) rfl
    (fun _ _ _ ha => by cases ha) ?_
  intro j index b' grow' ha
  cases ha
  obtain ⟨s, hs, hrel⟩ := hi.state
  exact ⟨hi.le, s, _, hs, hrel, hb⟩

/-- A step of an applier. -/
theorem Agree.setReplica (h : Agree host m Rel log g) {r : Replica τ κ}
    (hr : ReplicaOK m Rel log g.cluster i r) : Agree host m Rel log (g.setReplica i r) :=
  ⟨h.quiet, replicaOK_update hr fun j _ => h.replica j, h.logged, h.started, h.saved⟩

/-- A replica goes on to receive. -/
theorem Agree.proceed (h : Agree host m Rel log g) {index : Nat}
    (hpc : (g.replicas i).pc = .executed index) :
    Agree host m Rel log (g.setReplica i { g.replicas i with pc := .receiving }) := by
  have hi := h.replica i
  have hok := hi.pc
  rw [hpc] at hok
  exact h.setReplica ⟨hi.le, hi.state, hok.1⟩

/-- A server starts again from its snapshot. -/
theorem Agree.restart (himp : host.Implements m Rel) (h : Agree host m Rel log g) {grow : Nat}
    {c' : Cluster n κ} (hst : g.cluster.step (.restart i grow) = some c') :
    Agree host m Rel log ((g.setReplica i
      { state := host.start (c'.servers i).raft.persister.snapshot
        applied := (c'.servers i).startIndex }).setCluster c') := by
  have hst' := DistLabs.step_cases hst
  obtain ⟨H, hs⟩ := h.quiet.exists_sim
  have hquiet := h.quiet.step (a := .restart i grow) trivial trivial hst
  have hrestart : (c'.servers i).startIndex = (sentinel (c'.servers i).raft.log).index ∧
      (c'.servers i).delivered = [] := by
    cases hst'.stream_step hs i with
    | kept hne => exact absurd rfl hne
    | sent _ ha => rcases ha with ha | ⟨k, ha⟩ <;> cases ha
    | restarted _ _ hdel hstart => exact ⟨hstart, hdel⟩
  have hpersisted := hquiet.persisted i
  rw [← hrestart.1] at hpersisted
  refine h.setCluster hquiet hst (replicaOK_update ?_ fun j hj =>
    h.replica_kept hst fun hr => hj (Eq.symm hr)) rfl (fun _ _ _ ha => by cases ha)
    fun _ _ _ _ ha => by cases ha
  have hpc : ApplierOK c'.trace i (c'.servers i).received
      (c'.servers i).startIndex .receiving := by
    rw [Server.received, hrestart.2]
    rfl
  rcases hpersisted with ⟨hzero, hnil⟩ | ⟨j, hj⟩
  · refine ⟨?_, ⟨m.init, ?_, ?_⟩, hpc⟩
    · simp only [hzero]
      exact Nat.zero_le _
    · simp only [hzero]
      rfl
    · simp only [hzero, hnil]
      exact himp.start
  · rcases hst'.new_event hj with hj | hnew
    · obtain ⟨hle, s, t, hs, hrel, hb⟩ := h.saved j _ _ hj
      exact ⟨hle, ⟨s, hs, himp.restore hrel hb⟩, hpc⟩
    · cases hnew

/-! ### Steps of the appliers -/

/-- The log may be extended by a command that an applier has received and that no server has
executed. -/
theorem Agree.exists_entry (h : Agree host m Rel log g) {command : Option κ} {index term : Nat}
    (hpc : (g.replicas i).pc = .received (.command command index term)) :
    ∃ op log', command = some op ∧ index = (g.replicas i).applied + 1 ∧
      Agree host m Rel log' g ∧ log'[(g.replicas i).applied]? = some ⟨term, op⟩ ∧
      (log' = log ∨ log' = log ++ [⟨term, op⟩] ∧ log.length = (g.replicas i).applied) := by
  have hi := h.replica i
  have hok := hi.pc
  rw [hpc] at hok
  obtain ⟨_, happly, hcont⟩ := hok
  have hindex : index = (g.replicas i).applied + 1 := hcont
  subst hindex
  obtain ⟨_, j, hstart⟩ := h.quiet.started happly
  obtain ⟨op, rfl⟩ := Option.isSome_iff_exists.1 (h.started j _ _ _ hstart)
  rcases Nat.lt_or_eq_of_le hi.le with hlt | heq
  · obtain ⟨e, he⟩ : ∃ e, log[(g.replicas i).applied]? = some e :=
      ⟨_, List.getElem?_eq_getElem hlt⟩
    obtain ⟨k, hk⟩ := h.logged _ e he
    obtain ⟨hop, hterm⟩ := h.quiet.applied_unique happly hk
    cases hop
    subst hterm
    exact ⟨_, log, rfl, rfl, h, he, .inl rfl⟩
  · refine ⟨op, log ++ [⟨term, op⟩], rfl, rfl, ?_, ?_, .inr ⟨rfl, heq.symm⟩⟩
    · refine ⟨h.quiet, fun j => ?_, fun k e he => ?_, h.started,
        fun j index b hmem => (h.saved j index b hmem).append _⟩
      · have hj := h.replica j
        obtain ⟨s, hs, hrel⟩ := hj.state
        refine ⟨hj.le.trans ?_, ⟨s, ?_, hrel⟩, hj.pc⟩
        · rw [List.length_append]
          omega
        · rw [Service.stateAt_grown (List.prefix_append _ _) hj.le, hs]
      · rcases of_getElem?_concat he with he | ⟨rfl, rfl⟩
        · exact h.logged k e he
        · exact ⟨i, heq ▸ happly⟩
    · rw [heq]
      exact List.getElem?_concat_length

/-- The applier executes the next entry. -/
theorem Agree.apply_command (himp : host.Implements m Rel) (h : Agree host m Rel log g) {op : κ}
    {term : Nat} {state : τ} {res : Option α}
    (hpc : (g.replicas i).pc =
      .received (.command (some op) ((g.replicas i).applied + 1) term))
    (happ : host.applier (g.replicas i).state
      (.command (some op) ((g.replicas i).applied + 1) term) = some (state, res))
    (hentry : log[(g.replicas i).applied]? = some ⟨term, op⟩) :
    ∃ s s' a, res = some a ∧ m.stateAt log (g.replicas i).applied = some s ∧
      m.execute s op = some (s', a) ∧ Agree host m Rel log (g.setReplica i
        { state, pc := .executed ((g.replicas i).applied + 1)
          applied := (g.replicas i).applied + 1 }) := by
  have hi := h.replica i
  have hok := hi.pc
  rw [hpc] at hok
  obtain ⟨s, hs, hrel⟩ := hi.state
  obtain ⟨s', a, hexec, rfl, hrel'⟩ := himp.command hrel happ
  refine ⟨s, s', a, rfl, hs, hexec, h.setReplica ⟨?_, ⟨s', ?_, hrel'⟩, hok.1, rfl⟩⟩
  · exact (List.getElem?_eq_some_iff.1 hentry).1
  · rw [Service.stateAt_succ hentry hs, hexec]
    rfl

/-- A snapshot that the applier has received was encoded by some server, and is newer than its
state. -/
theorem Agree.received_snapshot (h : Agree host m Rel log g) {b : Bytes} {term index : Nat}
    (hpc : (g.replicas i).pc = .received (.snapshot b term index)) :
    (g.replicas i).applied < index ∧ (g.cluster.servers i).received = index ∧
      SavedAt host m Rel log index b := by
  have hok := (h.replica i).pc
  rw [hpc] at hok
  obtain ⟨hreceived, happly, hcont⟩ := hok
  obtain ⟨j, hj⟩ := (exists_snapshotsFrom h.quiet.reach).applied i b term index happly
  exact ⟨hcont, hreceived, h.saved j index b hj⟩

/-- The applier installs a snapshot. -/
theorem Agree.apply_snapshot (himp : host.Implements m Rel) (h : Agree host m Rel log g)
    {b : Bytes} {term index : Nat} {state : τ} {res : Option α}
    (hpc : (g.replicas i).pc = .received (.snapshot b term index))
    (happ : host.applier (g.replicas i).state (.snapshot b term index) = some (state, res)) :
    res = none ∧ (g.replicas i).applied < index ∧ index ≤ log.length ∧
      Agree host m Rel log (g.setReplica i { state, pc := .receiving, applied := index }) := by
  obtain ⟨hlt, hreceived, hle, s₀, t₀, hs₀, hrel₀, hb⟩ := h.received_snapshot hpc
  obtain ⟨s, hs, hrel⟩ := (h.replica i).state
  obtain ⟨rfl, hrel'⟩ := himp.install hrel hlt hrel₀ hb happ
  exact ⟨rfl, hlt, hle, h.setReplica ⟨hle, ⟨s₀, hs₀, hrel'⟩, hreceived⟩⟩

/-! ### Runs -/

/-- Every orderly step keeps the servers in agreement; only the execution of a command that no
server has executed makes the log longer. -/
theorem Agree.step (himp : host.Implements m Rel) (h : Agree host m Rel log g)
    {a : GroupAction n κ} (hok : g.Orderly a) (hst : g.step host a = some g') :
    ∃ log', log <+: log' ∧ Agree host m Rel log' g' := by
  cases ReplicaGroup.step_cases hst with
  | raft hint hc => exact ⟨log, List.prefix_refl _, h.raft hint hok hc⟩
  | start hc => exact ⟨log, List.prefix_refl _, h.start hc⟩
  | sendCommand hpc hc hmsg =>
    exact ⟨log, List.prefix_refl _, h.receive (.inl rfl) hpc hok hc hmsg⟩
  | sendSnapshot hpc hc hmsg =>
    exact ⟨log, List.prefix_refl _, h.receive (.inr ⟨_, rfl⟩) hpc hok hc hmsg⟩
  | snapshot hpc hb hc => exact ⟨log, List.prefix_refl _, h.snapshot hpc hb hc⟩
  | proceed hpc => exact ⟨log, List.prefix_refl _, h.proceed hpc⟩
  | restart hc => exact ⟨log, List.prefix_refl _, h.restart himp hc⟩
  | @apply i msg state res hpc happ =>
    cases msg with
    | command command index term =>
      obtain ⟨op, log', rfl, rfl, h', hentry, hlog⟩ := h.exists_entry hpc
      obtain ⟨_, _, a, rfl, _, _, hagree⟩ := h'.apply_command himp hpc happ hentry
      refine ⟨log', ?_, ?_⟩
      · rcases hlog with rfl | ⟨rfl, _⟩
        · exact List.prefix_refl _
        · exact List.prefix_append _ _
      · simp only [ApplyMsg.index, Nat.max_eq_right (Nat.le_succ _)]
        exact hagree
    | snapshot b term index =>
      obtain ⟨rfl, hlt, _, hagree⟩ := h.apply_snapshot himp hpc happ
      refine ⟨log, List.prefix_refl _, ?_⟩
      simp only [ApplyMsg.index, Nat.max_eq_right hlt.le]
      exact hagree

/-- Along an orderly run the servers stay in agreement on a log that grows. -/
theorem Agree.later (himp : host.Implements m Rel) (h : Agree host m Rel log g)
    (hlater : Reach (ReplicaGroup.step host) ReplicaGroup.Orderly g g') :
    ∃ log', log <+: log' ∧ Agree host m Rel log' g' := by
  induction hlater with
  | init => exact ⟨log, List.prefix_refl _, h⟩
  | step _ hok hst ih =>
    obtain ⟨log₁, hgrown₁, h₁⟩ := ih
    obtain ⟨log₂, hgrown₂, h₂⟩ := h₁.step himp hok hst
    exact ⟨log₂, hgrown₁.trans hgrown₂, h₂⟩

/-- In every orderly run the servers are at states of one log. -/
theorem exists_agree (himp : host.Implements m Rel)
    (h : Reach (ReplicaGroup.step host) ReplicaGroup.Orderly (ReplicaGroup.init host) g) :
    ∃ log, Agree host m Rel log g := by
  obtain ⟨log, -, hagree⟩ := (agree_init himp).later himp h
  exact ⟨log, hagree⟩

end

end DistLabs
