import DistLabs.Raft.Contiguous
import DistLabs.Raft.Local
import DistLabs.Raft.Safety

/-!
# Where commands and snapshots come from

What a service gets from Raft was given to Raft. A command was given to a call of `Start` that
returned the index and the term it is delivered with, and a snapshot was given to a call of
`Snapshot` with the index it is delivered with. Entries are copied from logs to requests and from
requests to logs, and stay in the backing array of a log after they were cut off it, where `apply`
may read them; so the invariant is about the cells of the arrays (`Raft.cells`). A cell that was
never written is zero, and `apply` may send such a cell as well.
-/

namespace DistLabs

open Lib Chronicle

variable {n : Nat} {α : Type} {m : Mode} {H : Chron n α} {c c' : Cluster n α} {a : Action n α}
  {i : Fin n} {rf rf' : Raft n α}

/-- A call of `Start` with the command of the entry returned its index and term. -/
def StartedIn (trace : List (Event n α)) (e : LogEntry α) : Prop :=
  ∃ i, .start i e.command e.index e.term ∈ trace

/-- A zero cell, or an entry that was started. -/
def CellFrom (trace : List (Event n α)) (e : LogEntry α) : Prop := e = .zero ∨ StartedIn trace e

/-- There is no snapshot yet, or `Snapshot` was called with it and its index. -/
def HandedOver (trace : List (Event n α)) (index : Nat) (snapshot : Bytes) : Prop :=
  index = 0 ∧ snapshot = [] ∨ ∃ i, .snapshot i index snapshot ∈ trace

section
variable {tr tr' : List (Event n α)}

/-- What was started stays started. -/
theorem CellFrom.mono (hsub : tr ⊆ tr') {e : LogEntry α} (h : CellFrom tr e) : CellFrom tr' e :=
  h.imp id fun ⟨i, hi⟩ => ⟨i, hsub hi⟩

/-- What was handed over stays handed over. -/
theorem HandedOver.mono (hsub : tr ⊆ tr') {index : Nat} {b : Bytes} (h : HandedOver tr index b) :
    HandedOver tr' index b :=
  h.imp id fun ⟨i, hi⟩ => ⟨i, hsub hi⟩

end

/-- What holds of the other servers before a step of server `p`, and of the new value of server
`p`. -/
theorem forall_servers_update {P : Fin n → Server n α → Prop} {p : Fin n} {s' : Server n α}
    (hserv : c'.servers = Function.update c.servers p s') (hp : P p s')
    (h : ∀ i, i ≠ p → P i (c.servers i)) : ∀ i, P i (c'.servers i) := by
  rw [hserv]
  exact (Function.forall_update_iff c.servers P).2 ⟨hp, h⟩

/-! ## The history -/

/-- Nothing is removed from the history. -/
theorem Step.trace_subset (hst : Step c a c') : c.trace ⊆ c'.trace := by
  cases hst with
  | start | snapshot | elected | appendEntriesReply | installRefused | installSnapshot
  | sendCommand | sendSnapshot => exact List.subset_append_left _ _
  | _ => exact List.Subset.refl _

/-- The events that an action adds to the history. -/
inductive NewEvent (c : Cluster n α) : Action n α → Event n α → Prop
  | becomeLeader {i : Fin n} {k term : Nat} {log : List (LogEntry α)} :
      NewEvent c (.requestVoteReply k) (.becomeLeader i term log)
  | start {i : Fin n} {command : Option α} {g index term : Nat} :
      NewEvent c (.start i command g) (.start i command index term)
  | commit {i : Fin n} {k term index : Nat} {log : List (LogEntry α)} :
      NewEvent c (.appendEntriesReply k) (.commit i term index log)
  | snapshot {i : Fin n} {b : Bytes} {index g : Nat} :
      NewEvent c (.snapshot i index b g) (.snapshot i index b)
  | installSnapshot {k g : Nat} {call : SnapCall n} (hcall : call ∈ c.snaps) :
      NewEvent c (.installSnapshot k g)
        (.installSnapshot call.callee call.args.lastIncludedIndex call.args.snapshot)
  | sendCommand {i : Fin n} {e : LogEntry α} (he : e ∈ (c.servers i).applying) :
      NewEvent c (.sendCommand i) (.apply i (.command e.command e.index e.term))
  | sendSnapshot {i : Fin n} {k : Nat} {x : Installer n α} {msg : ApplyMsg α}
      (hx : x ∈ (c.servers i).installing) (hmsg : x.msg = msg) :
      NewEvent c (.sendSnapshot i k) (.apply i msg)

/-- An event in the history is an old one, or one of the action. -/
theorem Step.new_event (hst : Step c a c') {ev : Event n α} (h : ev ∈ c'.trace) :
    ev ∈ c.trace ∨ NewEvent c a ev := by
  have hadd : ∀ {evs : List (Event n α)}, ev ∈ c.trace ++ evs → (∀ ev ∈ evs, NewEvent c a ev) →
      ev ∈ c.trace ∨ NewEvent c a ev :=
    fun h hnew => (List.mem_append.1 h).imp id (hnew ev)
  have hone : ∀ {ev' : Event n α}, ev ∈ c.trace ++ [ev'] → NewEvent c a ev' →
      ev ∈ c.trace ∨ NewEvent c a ev :=
    fun h hnew => hadd h fun _ hev => List.mem_singleton.1 hev ▸ hnew
  cases hst with
  | start => exact hone h .start
  | snapshot => exact hone h .snapshot
  | elected => exact hone h .becomeLeader
  | appendEntriesReply =>
    refine hadd h fun ev hev => ?_
    obtain ⟨_, _, rfl⟩ := List.mem_map.1 hev
    exact .commit
  | installRefused hk | installSnapshot hk =>
    exact hone h (.installSnapshot (List.mem_of_getElem? hk))
  | sendCommand happ => exact hone h (.sendCommand (happ ▸ List.mem_cons_self))
  | sendSnapshot hk => exact hone h (.sendSnapshot (List.mem_of_getElem? hk) rfl)
  | _ => exact .inl h

/-! ## The cells of backing arrays -/

/-- The cells of the backing array of the log, without the sentinel. -/
def Raft.cells (rf : Raft n α) : List (LogEntry α) := (rf.log ++ rf.spare).tail

/-- The cells of `rf'` are cells of `rf`, fresh ones, or among `es`. -/
def CellsFrom (es : List (LogEntry α)) (rf rf' : Raft n α) : Prop :=
  ∀ e ∈ rf'.cells, e ∈ rf.cells ∨ e = .zero ∨ e ∈ es

/-- Cells that stay as they are come from nowhere else. -/
theorem CellsFrom.of_eq {es : List (LogEntry α)} (hlog : rf'.log = rf.log)
    (hspare : rf'.spare = rf.spare) : CellsFrom es rf rf' := by
  intro e he
  rw [Raft.cells, hlog, hspare] at he
  exact .inl he

/-- Where cells come from, seen from an earlier state with the same cells. -/
theorem CellsFrom.trans_eq {es : List (LogEntry α)} {rf₀ : Raft n α} (h : CellsFrom es rf rf')
    (hlog : rf.log = rf₀.log) (hspare : rf.spare = rf₀.spare) : CellsFrom es rf₀ rf' := by
  intro e he
  have hcells : rf.cells = rf₀.cells := by rw [Raft.cells, hlog, hspare, Raft.cells]
  rw [← hcells]
  exact h e he

/-- The log past its sentinel lies in the array. -/
theorem tail_log_subset (hne : rf.log ≠ []) : rf.log.tail ⊆ rf.cells := by
  obtain ⟨e, es, heq⟩ := List.exists_cons_of_ne_nil hne
  rw [Raft.cells, heq]
  exact List.subset_append_left _ _

theorem drop_subset_tail {β : Type} {l : List β} {k : Nat} (hk : 0 < k) : l.drop k ⊆ l.tail := by
  obtain ⟨j, rfl⟩ : ∃ j, k = j + 1 := ⟨k - 1, by omega⟩
  rw [← List.drop_tail]
  exact List.drop_subset _ _

/-- What is dropped from the log with its sentinel is in the array. -/
theorem drop_log_subset {k : Nat} (hne : rf.log ≠ []) (hk : 0 < k) : rf.log.drop k ⊆ rf.cells :=
  fun _ he => tail_log_subset hne (drop_subset_tail hk he)

/-- A fresh array with entries of the old one, or none. -/
theorem CellsFrom.fresh {es entries : List (LogEntry α)} {e₀ : LogEntry α} {g : Nat}
    (hlog : rf'.log = e₀ :: entries) (hspare : rf'.spare = List.replicate g .zero)
    (hsub : entries ⊆ rf.cells) : CellsFrom es rf rf' := by
  intro e he
  rw [Raft.cells, hlog, hspare, List.cons_append, List.tail_cons, List.mem_append] at he
  rcases he with he | he
  · exact .inl (hsub he)
  · exact .inr (.inl (List.eq_of_mem_replicate he))

/-- `append` past the sentinel writes `es` into the array, or copies the log to a fresh one. -/
theorem appendAt_cells (hne : rf.log ≠ []) {k g : Nat} (hk : 0 < k) (es : List (LogEntry α)) :
    CellsFrom es rf (rf.appendAt k es g) := by
  obtain ⟨e₀, rest, heq⟩ := List.exists_cons_of_ne_nil hne
  obtain ⟨j, rfl⟩ : ∃ j, k = j + 1 := ⟨k - 1, by omega⟩
  intro e he
  simp only [Raft.cells, Raft.appendAt, heq, List.take_succ_cons, List.cons_append, List.tail_cons,
    List.mem_append] at he ⊢
  rcases he with (he | he) | he
  · exact .inl (.inl (List.mem_of_mem_take he))
  · exact .inr (.inr he)
  · split at he
    · have hcell := drop_subset_tail (by omega) he
      rw [List.tail_cons] at hcell
      exact .inl (List.mem_append.1 hcell)
    · exact .inr (.inl (List.eq_of_mem_replicate he))

/-! ## What the handlers write -/

/-- Stepping down leaves the backing array alone. -/
theorem stepDown_spare (rf : Raft n α) (t : Nat) : (rf.stepDown t).spare = rf.spare := by
  rw [Raft.stepDown]
  split <;> rfl

/-- `RequestVote` leaves the backing array alone. -/
theorem requestVote_spare {args : RequestVoteArgs n} {reply : RequestVoteReply}
    (hr : rf.requestVote args = some (rf', reply)) : rf'.spare = rf.spare := by
  rw [Raft.requestVote] at hr
  split at hr
  · cases hr
    rfl
  simp only [Raft.decideVote, Option.bind_eq_bind, Option.bind_eq_some_iff] at hr
  obtain ⟨_, _, _, _, hr⟩ := hr
  split at hr
  · cases hr
    rw [Raft.castVote]
    split <;> exact stepDown_spare ..
  · cases hr
    exact stepDown_spare ..

/-- Handling an answer to entries leaves the backing array alone. -/
theorem handleAppendEntriesRPCResponse_spare {server : Fin n} {args : AppendEntriesArgs n α}
    {reply : AppendEntriesReply} {again : Bool} {assigned : List Nat}
    (hr : rf.handleAppendEntriesRPCResponse i server args reply = some (rf', again, assigned)) :
    rf'.spare = rf.spare := by
  rw [Raft.handleAppendEntriesRPCResponse] at hr
  split at hr
  swap
  · cases hr
    rfl
  split at hr
  · split at hr
    · simp only [Raft.advanceCommit, Option.bind_eq_bind, Option.bind_eq_some_iff,
        Prod.exists] at hr
      obtain ⟨_, _, ⟨_, _, _, _, hadv⟩, hr⟩ := hr
      cases hadv
      cases hr
      rfl
    · simp only [Raft.backUp, Option.bind_eq_bind, Option.bind_eq_some_iff] at hr
      obtain ⟨_, ⟨_, _, _, _, hback⟩, hr⟩ := hr
      cases hback
      cases hr
      rfl
  · split at hr <;> cases hr <;> rfl

/-- Handling an answer to a snapshot leaves the backing array alone. -/
theorem handleInstallSnapshotRPCResponse_spare (rf : Raft n α) (server : Fin n)
    (args : InstallSnapshotArgs n) (reply : InstallSnapshotReply) :
    (rf.handleInstallSnapshotRPCResponse server args reply).spare = rf.spare := by
  rw [Raft.handleInstallSnapshotRPCResponse]
  split
  · split
    · rfl
    · split <;> rfl
  · rfl

/-- `Start` on a leader returns the next index and the current term, and does not change its
role. -/
theorem start_result (hc : Contiguous rf.log) {command : Option α} {g index term : Nat}
    (hr : rf.start command g = some (rf', some (index, term))) :
    index = nextOf rf.log ∧ term = rf.currentTerm ∧ rf.state = .leader ∧
      rf' = (rf.appendAt rf.log.length [⟨command, term, index⟩] g).persist := by
  rw [Raft.start] at hr
  split at hr
  · cases hr
  next hleader =>
  simp only [hc.getNextIndex, Option.bind_eq_bind, Option.bind_some, Option.bind_eq_some_iff] at hr
  obtain ⟨last, hlast, hr⟩ := hr
  have hindex : last = nextOf rf.log := by
    rw [Raft.getLastIndex, Option.map_eq_some_iff] at hlast
    obtain ⟨e, he, rfl⟩ := hlast
    rw [show (rf.appendAt rf.log.length [⟨command, rf.currentTerm, nextOf rf.log⟩] g).persist.log =
      rf.log.take rf.log.length ++ [⟨command, rf.currentTerm, nextOf rf.log⟩] from rfl,
      List.getLast?_concat] at he
    cases he
    rfl
  subst hindex
  cases hr
  exact ⟨rfl, rfl, not_not.1 hleader, rfl⟩

/-- `Start` writes the new entry. -/
theorem start_cells (hc : Contiguous rf.log) {command : Option α} {g index term : Nat}
    (hr : rf.start command g = some (rf', some (index, term))) :
    CellsFrom [⟨command, term, index⟩] rf rf' := by
  obtain ⟨_, _, _, rfl⟩ := start_result hc hr
  exact appendAt_cells hc.ne_nil hc.length_pos _

/-- `Snapshot` makes no cells but zero ones. -/
theorem snapshot_cells (hne : rf.log ≠ []) {index g : Nat} {b : Bytes} {es : List (LogEntry α)}
    (hr : rf.snapshot index b g = some rf') : CellsFrom es rf rf' := by
  simp only [Raft.snapshot, Option.bind_eq_bind, Option.bind_eq_some_iff] at hr
  obtain ⟨first, _, hr⟩ := hr
  split at hr
  · cases hr
    exact .of_eq rfl rfl
  next hlt =>
  split at hr
  · cases hr
  split at hr
  · cases hr
  next e₀ entries hdrop =>
  have hsub : e₀ :: entries ⊆ rf.cells := by
    rw [← hdrop]
    exact drop_log_subset hne (by omega)
  cases hr
  exact .fresh rfl rfl fun e he => hsub (List.mem_cons_of_mem _ he)

/-- Skipping the entries that match goes forward and leaves a part of them. -/
theorem skipMatched_le {es : List (LogEntry α)} {ins k : Nat} {rest : List (LogEntry α)}
    (hr : rf.skipMatched es ins = some (k, rest)) : ins ≤ k ∧ rest ⊆ es := by
  induction es generalizing ins with
  | nil =>
    cases hr
    exact ⟨Nat.le_refl _, List.Subset.refl _⟩
  | cons e es ih =>
    simp only [Raft.skipMatched, Option.bind_eq_bind, Option.bind_eq_some_iff] at hr
    obtain ⟨next, _, hr⟩ := hr
    split at hr
    · cases hr
      exact ⟨Nat.le_refl _, List.Subset.refl _⟩
    rw [Option.bind_eq_some_iff] at hr
    obtain ⟨term, _, hr⟩ := hr
    split at hr
    · cases hr
      exact ⟨Nat.le_refl _, List.Subset.refl _⟩
    · obtain ⟨hle, hsub⟩ := ih hr
      exact ⟨by omega, fun x hx => List.mem_cons_of_mem _ (hsub hx)⟩

/-- Following the commit index leaves the cells alone. -/
theorem followCommit_cells (rf : Raft n α) (last lc : Nat) :
    (rf.followCommit last lc).cells = rf.cells := by
  rw [Raft.followCommit]
  split <;> rfl

/-- What is stored comes from the request. -/
theorem receiveEntries_cells (hne : rf.log ≠ []) {args : AppendEntriesArgs n α} {g : Nat}
    {reply : AppendEntriesReply} (hr : rf.receiveEntries args g = some (rf', reply)) :
    CellsFrom args.entries rf rf' := by
  simp only [Raft.receiveEntries, Option.bind_eq_bind, Option.bind_eq_some_iff] at hr
  obtain ⟨first, _, hr⟩ := hr
  split at hr
  · cases hr
    exact .of_eq rfl rfl
  next hprev =>
  rw [Option.bind_eq_some_iff] at hr
  obtain ⟨next, _, hr⟩ := hr
  split at hr
  · cases hr
    exact .of_eq rfl rfl
  rw [Option.bind_eq_some_iff] at hr
  obtain ⟨t, _, hr⟩ := hr
  split at hr
  swap
  · rw [Option.bind_eq_some_iff] at hr
    obtain ⟨_, _, hr⟩ := hr
    cases hr
    exact .of_eq rfl rfl
  simp only [Raft.storeEntries, Option.bind_eq_bind, Option.bind_eq_some_iff, Prod.exists] at hr
  obtain ⟨ins, rest, hskip, next', _, hr⟩ := hr
  cases hr
  obtain ⟨hle, hsub⟩ := skipMatched_le hskip
  intro e he
  have hcells : e ∈ (rf.overwrite first ins rest g).cells := by
    rw [← followCommit_cells _ (next' - 1) args.leaderCommit]
    split at he <;> exact he
  unfold Raft.overwrite at hcells
  split at hcells
  · exact .inl hcells
  · exact (appendAt_cells hne (by omega) rest e hcells).imp id (Or.imp id fun h => hsub h)

/-- `AppendEntries` stores entries of the request only. -/
theorem appendEntries_cells (hne : rf.log ≠ []) {args : AppendEntriesArgs n α} {g : Nat}
    {reply : AppendEntriesReply} (hr : rf.appendEntries args g = some (rf', reply)) :
    CellsFrom args.entries rf rf' := by
  have hlog : (rf.stepDown args.term).log = rf.log := stepDown_log ..
  have hspare : (rf.stepDown args.term).spare = rf.spare := stepDown_spare ..
  rw [Raft.appendEntries] at hr
  split at hr
  · cases hr
    exact .of_eq rfl rfl
  split at hr
  · cases hr
    exact .of_eq hlog hspare
  · have hne' : (rf.stepDown args.term).toFollower.log ≠ [] := by
      rw [show (rf.stepDown args.term).toFollower.log = rf.log from hlog]
      exact hne
    exact (receiveEntries_cells hne' hr).trans_eq hlog hspare

/-- `InstallSnapshot` makes no cells but zero ones. -/
theorem installSnapshot_cells (hc : Contiguous rf.log)
    (hfirst : (sentinel rf.log).index ≤ rf.commitIndex) {args : InstallSnapshotArgs n} {g : Nat}
    {reply : InstallSnapshotReply} {msg : Option (ApplyMsg α)} {es : List (LogEntry α)}
    (hr : rf.installSnapshot args g = some (rf', reply, msg)) : CellsFrom es rf rf' := by
  obtain ⟨_, _, _, hr', hcase⟩ := hc.exists_installSnapshot hfirst args g
  rw [hr] at hr'
  cases hr'
  rcases hcase with ⟨rfl, _⟩ | ⟨_, hrep⟩
  · exact .of_eq rfl rfl
  have hlog : (rf.stepDown args.term).toFollower.log = rf.log := stepDown_log ..
  have hci : (rf.stepDown args.term).toFollower.commitIndex = rf.commitIndex :=
    stepDown_commitIndex ..
  cases hrep with
  | known => exact .of_eq hlog (stepDown_spare ..)
  | whole => exact .fresh (g := 0) rfl rfl (List.nil_subset _)
  | suffix _ hold =>
    refine .fresh rfl rfl ?_
    rw [hlog]
    exact drop_log_subset hc.ne_nil (by omega)

/-- Where a cell of an array comes from: it was there, is fresh, or holds an entry of a request in
flight or of a `Start`. -/
theorem Step.cells_origin (hs : Sim m H c) (hst : Step c a c') {e : LogEntry α}
    (he : e ∈ (c'.servers i).raft.cells) :
    e ∈ (c.servers i).raft.cells ∨ e = .zero ∨ (∃ call ∈ c.appends, e ∈ call.args.entries) ∨
      StartedIn c'.trace e := by
  have hcont : ∀ p, Contiguous (c.servers p).raft.log :=
    fun p => (hs.raft p).log.contiguous hs.indexed
  have hset : ∀ {p : Fin n} {s' : Server n α} {es : List (LogEntry α)},
      c'.servers = Function.update c.servers p s' → CellsFrom es (c.servers p).raft s'.raft →
      (∀ e ∈ es, (∃ call ∈ c.appends, e ∈ call.args.entries) ∨ StartedIn c'.trace e) →
      e ∈ (c.servers i).raft.cells ∨ e = .zero ∨ (∃ call ∈ c.appends, e ∈ call.args.entries) ∨
        StartedIn c'.trace e := fun hserv hcells hes =>
    forall_servers_update (P := fun i s => ∀ e ∈ s.raft.cells, e ∈ (c.servers i).raft.cells ∨
        e = .zero ∨ (∃ call ∈ c.appends, e ∈ call.args.entries) ∨ StartedIn c'.trace e) hserv
      (fun e he => (hcells e he).imp id (Or.imp id (hes e))) (fun _ _ _ he => .inl he) i e he
  -- most handlers write nothing
  have hnone : ∀ {p : Fin n} {s' : Server n α}, c'.servers = Function.update c.servers p s' →
      CellsFrom [] (c.servers p).raft s'.raft →
      e ∈ (c.servers i).raft.cells ∨ e = .zero ∨ (∃ call ∈ c.appends, e ∈ call.args.entries) ∨
        StartedIn c'.trace e :=
    fun hserv hcells => hset hserv hcells fun _ he => absurd he List.not_mem_nil
  cases hst with
  | startRefused | loseVote | loseAppend | loseSnap => exact .inl he
  | electionTimeout hr =>
    refine hnone rfl (.of_eq (startElection_log hr).1 ?_)
    simp only [Raft.startElection, Option.bind_eq_bind, Option.bind_eq_some_iff] at hr
    obtain ⟨_, _, _, _, hr⟩ := hr
    cases hr
    rfl
  | @heartBeat j =>
    have hraft := (runHeartBeats_raft (c.servers j) j).1
    exact hnone rfl (.of_eq (congrArg Raft.log hraft) (congrArg Raft.spare hraft))
  | @start j command g index term raft hr =>
    have hraft := (runHeartBeats_raft ({ c.servers j with raft } : Server n α) j).1
    refine hset rfl (?_ : CellsFrom [⟨command, term, index⟩] _ _) fun e he => .inr ?_
    · rw [hraft]
      exact start_cells (hcont j) hr
    · rw [List.mem_singleton.1 he]
      exact ⟨j, List.mem_append_right _ List.mem_cons_self⟩
  | snapshot _ hr => exact hnone rfl (snapshot_cells (hcont _).ne_nil hr)
  | replicateIdle | replicateAppend | replicateSnapshot | sendCommand | sendSnapshot | kill =>
    exact hnone rfl (.of_eq rfl rfl)
  | requestVote _ hr => exact hnone rfl (.of_eq (requestVote_log hr).1 (requestVote_spare hr))
  | requestVoteReply _ _ _ hr | elected _ _ _ hr =>
    refine hnone rfl ?_
    rcases handleVoteReply_cases hr with
      ⟨rfl, _⟩ | ⟨_, _, ⟨_, ⟨rfl, _⟩ | ⟨_, _, hbl, rfl, _⟩⟩ | ⟨_, rfl, _⟩⟩
    · exact .of_eq rfl rfl
    · exact .of_eq rfl rfl
    · obtain ⟨_, _, rfl⟩ := exists_of_becomeLeader hbl
      exact .of_eq rfl rfl
    · exact .of_eq rfl rfl
  | appendEntries hk hr =>
    exact hset rfl (appendEntries_cells (hcont _).ne_nil hr) fun e he =>
      .inl ⟨_, List.mem_of_getElem? hk, he⟩
  | appendEntriesReply _ _ _ hr =>
    exact hnone rfl (.of_eq (handleAppendEntriesRPCResponse_heard hr).1
      (handleAppendEntriesRPCResponse_spare hr))
  | installRefused _ hr | installSnapshot _ hr =>
    exact hnone rfl (installSnapshot_cells (hcont _) (hs.raft _).first_le_commit hr)
  | installSnapshotReply =>
    exact hnone rfl (.of_eq (handleInstallSnapshotRPCResponse_heard ..).1
      (handleInstallSnapshotRPCResponse_spare ..))
  | takeBatch _ hr =>
    obtain ⟨_, rfl, _⟩ := takeBatch_ok hs.ok hs.indexed (hs.raft _) hr
    exact hnone rfl (.of_eq rfl rfl)
  | @restart j g s' hr =>
    obtain ⟨rf, _, hrf, _, rfl⟩ := exists_of_make hr
    obtain ⟨spare, hspare, hmake⟩ := make_eq hs.ok hs.indexed (hs.raft j) g
    rw [hmake] at hrf
    cases hrf
    have hsub := tail_log_subset (hcont j).ne_nil
    rcases hspare with rfl | rfl
    · exact hnone rfl (.fresh (g := 0) (hcont j).eq_cons rfl hsub)
    · exact hnone rfl (.fresh (hcont j).eq_cons rfl hsub)

/-! ## Commands -/

/-- Whatever may reach a service as a command was started, or is a zero cell. -/
structure CommandsFrom (c : Cluster n α) : Prop where
  cells : ∀ i, ∀ e ∈ (c.servers i).raft.cells, CellFrom c.trace e
  appends : ∀ call ∈ c.appends, ∀ e ∈ call.args.entries, CellFrom c.trace e
  applying : ∀ i, ∀ e ∈ (c.servers i).applying, CellFrom c.trace e
  applied : ∀ i command index term, .apply i (.command command index term) ∈ c.trace →
    CellFrom c.trace ⟨command, term, index⟩

/-- What `apply` takes are cells. -/
theorem takeBatch_subset (hc : Contiguous rf.log)
    (hfirst : (sentinel rf.log).index ≤ rf.lastApplied)
    {batch : List (LogEntry α)} (hr : rf.takeBatch = some (rf', batch)) : batch ⊆ rf.cells := by
  simp only [Raft.takeBatch, hc.getFirstIndex, Option.bind_eq_bind, Option.bind_some,
    Option.pure_def] at hr
  split at hr
  · cases hr
  split at hr
  · cases hr
  split at hr
  · cases hr
  cases hr
  exact fun e he => drop_subset_tail (by omega) (List.mem_of_mem_take he)

/-- The entries that `apply` is about to send after a step: old ones, or cells. -/
theorem Step.applying_origin (hs : Sim m H c) (hst : Step c a c') {e : LogEntry α}
    (he : e ∈ (c'.servers i).applying) :
    e ∈ (c.servers i).applying ∨ e ∈ (c.servers i).raft.cells := by
  have hset : ∀ {p : Fin n} {s' : Server n α}, c'.servers = Function.update c.servers p s' →
      (∀ e ∈ s'.applying, e ∈ (c.servers p).applying ∨ e ∈ (c.servers p).raft.cells) →
      e ∈ (c.servers i).applying ∨ e ∈ (c.servers i).raft.cells := fun hserv h =>
    forall_servers_update (P := fun i s => ∀ e ∈ s.applying, e ∈ (c.servers i).applying ∨
        e ∈ (c.servers i).raft.cells) hserv h (fun _ _ _ he => .inl he) i e he
  cases hst with
  | startRefused | loseVote | loseAppend | loseSnap => exact .inl he
  | heartBeat | start =>
    refine hset rfl fun e he => .inl ?_
    rw [Server.runHeartBeats] at he
    split at he <;> exact he
  | requestVoteReply _ _ _ hr | elected _ _ _ hr =>
    refine hset rfl fun e he => .inl ?_
    rcases handleVoteReply_cases hr with
      ⟨rfl, _⟩ | ⟨_, _, ⟨_, ⟨rfl, _⟩ | ⟨_, _, _, rfl, _⟩⟩ | ⟨_, rfl, _⟩⟩ <;> exact he
  | @takeBatch j raft batch _ hr =>
    have hcont := (hs.raft j).log.contiguous hs.indexed
    exact hset rfl fun e he => .inr (takeBatch_subset hcont (hs.raft j).first_le hr he)
  | sendCommand happ =>
    refine hset rfl fun e he => .inl ?_
    rw [happ]
    exact List.mem_cons_of_mem _ he
  | restart hr =>
    obtain ⟨_, _, _, _, rfl⟩ := exists_of_make hr
    refine hset rfl fun e he => ?_
    cases he
  | _ => exact hset rfl fun e he => .inl he

/-- After a step, commands still come from `Start`. -/
theorem CommandsFrom.step (h : CommandsFrom c) (hs : Sim m H c) (hst : Step c a c') :
    CommandsFrom c' := by
  have hsub := hst.trace_subset
  have hold : ∀ {i : Fin n} {e : LogEntry α}, e ∈ (c.servers i).raft.cells → CellFrom c'.trace e :=
    fun he => (h.cells _ _ he).mono hsub
  refine ⟨fun i e he => ?_, fun call hcall e he => ?_, fun i e he => ?_,
    fun i command index term happly => ?_⟩
  · rcases hst.cells_origin hs he with he | he | ⟨call, hcall, he⟩ | he
    · exact hold he
    · exact .inl he
    · exact (h.appends call hcall e he).mono hsub
    · exact .inr he
  · cases hst.append_origin hcall with
    | old hcall => exact (h.appends call hcall e he).mono hsub
    | @answered _ call₀ _ _ _ hold => exact (h.appends call₀ hold e he).mono hsub
    | @built i k r args hk hb =>
      have hcont := (hs.raft i).log.contiguous hs.indexed
      obtain ⟨_, hprev, hentries⟩ := hcont.of_buildRequest_append hb
      have hbounds := hcont.bounds_of_getTerm hprev
      simp only [hentries] at he
      exact hold (drop_log_subset hcont.ne_nil (by omega) he)
  · rcases hst.applying_origin hs he with he | he
    · exact (h.applying i e he).mono hsub
    · exact hold he
  · rcases hst.new_event happly with hmem | hnew
    · exact (h.applied i command index term hmem).mono hsub
    cases hnew with
    | sendCommand he => exact (h.applying i _ he).mono hsub
    | sendSnapshot hx hmsg =>
      obtain ⟨b, t, k, hsnap⟩ := ((hs.goroutines i).installing _ hx).2.2
      rw [hsnap] at hmsg
      cases hmsg

theorem commandsFrom_init : CommandsFrom (Cluster.init : Cluster n α) where
  cells _ _ he := by cases he
  appends _ hcall := by cases hcall
  applying _ _ he := by cases he
  applied _ _ _ _ h := by cases h

/-- In every run commands come from `Start`. -/
theorem exists_commandsFrom {ok : Cluster n α → Action n α → Prop} (hc : Reachable ok c) :
    CommandsFrom c :=
  invariant_of_sim commandsFrom_init (fun hs _ _ h _ hst => h.step hs (step_cases hst)) hc

/-! ## Snapshots -/

/-- The message that a handler is about to send is its request's snapshot, which is not empty. -/
def Installer.Faithful (x : Installer n α) : Prop :=
  0 < x.call.args.lastIncludedIndex ∧ x.msg =
    .snapshot x.call.args.snapshot x.call.args.lastIncludedTerm x.call.args.lastIncludedIndex

/-- Whatever may reach a service as a snapshot was handed over by a service, with the same
index. -/
structure SnapshotsFrom (c : Cluster n α) : Prop where
  installed : ∀ i index b, .installSnapshot i index b ∈ c.trace → HandedOver c.trace index b
  calls : ∀ call, SnapInFlight c call →
    HandedOver c.trace call.args.lastIncludedIndex call.args.snapshot
  installing : ∀ i, ∀ x ∈ (c.servers i).installing, x.Faithful
  applied : ∀ i b term index, .apply i (.snapshot b term index) ∈ c.trace →
    ∃ j, .snapshot j index b ∈ c.trace

/-- The snapshot in the `Persister` is that of the sentinel. -/
theorem SnapshotsFrom.persister (h : SnapshotsFrom c) (hs : Sim m H c) (i : Fin n) :
    HandedOver c.trace (sentinel (c.servers i).raft.log).index
      (c.servers i).raft.persister.snapshot := by
  have hok := hs.snapshots i
  unfold SnapshotOK at hok
  split at hok
  · next hzero => exact .inl ⟨hzero, hok⟩
  · rcases hok with hok | hok
    · exact .inr ⟨i, hok⟩
    · exact h.installed i _ _ hok

/-- An `InstallSnapshot` request carries the snapshot of the `Persister` with the index of the
sentinel. -/
theorem Contiguous.of_buildRequest_install (hc : Contiguous rf.log) {me server : Fin n}
    {term : Nat} {args : InstallSnapshotArgs n}
    (hr : rf.buildRequest me server term = some (some (.snapshot args))) :
    args.lastIncludedIndex = (sentinel rf.log).index ∧ args.snapshot = rf.persister.snapshot := by
  simp only [Raft.buildRequest, hc.getFirstIndex, Option.bind_eq_bind, Option.bind_some] at hr
  split at hr
  · cases hr
  split at hr
  · rw [Option.bind_eq_some_iff] at hr
    obtain ⟨t, ht, hr⟩ := hr
    cases hr
    exact ⟨rfl, rfl⟩
  rw [Option.bind_eq_some_iff] at hr
  obtain ⟨next, _, hr⟩ := hr
  split at hr
  · cases hr
  rw [Option.bind_eq_some_iff] at hr
  obtain ⟨t, ht, hr⟩ := hr
  cases hr

/-- After a step, a snapshot that is about to be sent is still that of its call. -/
theorem faithful_step (h : ∀ i, ∀ x ∈ (c.servers i).installing, x.Faithful) (hs : Sim .any H c)
    (hst : Step c a c') : ∀ i, ∀ x ∈ (c'.servers i).installing, x.Faithful := by
  have hset : ∀ {p : Fin n} {s' : Server n α}, c'.servers = Function.update c.servers p s' →
      s'.installing ⊆ (c.servers p).installing →
        ∀ i, ∀ x ∈ (c'.servers i).installing, x.Faithful :=
    fun hserv hsub => forall_servers_update (P := fun _ s => ∀ x ∈ s.installing, x.Faithful) hserv
      (fun x hx => h _ x (hsub hx)) fun i _ => h i
  have hrefl : ∀ {β : Type} (l : List β), l ⊆ l := fun l => List.Subset.refl l
  cases hst with
  | startRefused | loseVote | loseAppend | loseSnap => exact h
  | heartBeat | start =>
    refine hset rfl ?_
    rw [runHeartBeats_installing]
    exact hrefl _
  | requestVoteReply _ _ _ hr | elected _ _ _ hr =>
    refine hset rfl ?_
    rcases handleVoteReply_cases hr with
      ⟨rfl, _⟩ | ⟨_, _, ⟨_, ⟨rfl, _⟩ | ⟨_, _, _, rfl, _⟩⟩ | ⟨_, rfl, _⟩⟩ <;> exact hrefl _
  | @installSnapshot k g call raft reply msg hk hr =>
    obtain ⟨⟨V, hargs⟩, _⟩ := hs.snaps call (List.mem_of_getElem? hk)
    obtain ⟨_, _, _, rfl, hlt, _⟩ :=
      installSnapshot_ok hs.ok hs.indexed (hs.raft call.callee) hargs
      (.inl trivial) hr
    refine forall_servers_update (P := fun _ s => ∀ x ∈ s.installing, x.Faithful) rfl
      (fun x hx => ?_) fun i _ => h i
    rcases List.mem_append.1 hx with hx | hx
    · exact h _ x hx
    · rw [List.mem_singleton.1 hx]
      exact ⟨Nat.zero_lt_of_lt hlt, rfl⟩
  | sendSnapshot => exact hset rfl List.eraseIdx_subset
  | restart hr =>
    obtain ⟨_, _, _, _, rfl⟩ := exists_of_make hr
    exact hset rfl (List.nil_subset _)
  | _ => exact hset rfl (hrefl _)

/-- After a step, snapshots still come from `Snapshot`. -/
theorem SnapshotsFrom.step (h : SnapshotsFrom c) (hs : Sim .any H c) (hst : Step c a c') :
    SnapshotsFrom c' := by
  have hsub := hst.trace_subset
  refine ⟨fun i index b hmem => ?_, fun call hcall => ?_, faithful_step h.installing hs hst,
    fun i b term index happly => ?_⟩
  · rcases hst.new_event hmem with hmem | hnew
    · exact (h.installed i index b hmem).mono hsub
    cases hnew with
    | installSnapshot hcall => exact (h.calls _ (.inl hcall)).mono hsub
  · cases hst.snap_origin hcall with
    | old hold hargs =>
      rw [hargs]
      exact (h.calls _ hold).mono hsub
    | @built i k r args hk hb =>
      obtain ⟨hindex, hsnap⟩ := ((hs.raft i).log.contiguous hs.indexed).of_buildRequest_install hb
      simp only [hindex, hsnap]
      exact (h.persister hs i).mono hsub
  · rcases hst.new_event happly with hmem | hnew
    · obtain ⟨j, hj⟩ := h.applied i b term index hmem
      exact ⟨j, hsub hj⟩
    cases hnew with
    | sendSnapshot hx hmsg =>
      obtain ⟨hpos, hfaith⟩ := h.installing i _ hx
      cases hfaith.symm.trans hmsg
      rcases h.calls _ (.inr ⟨i, _, hx, rfl⟩) with ⟨hzero, _⟩ | ⟨j, hj⟩
      · omega
      · exact ⟨j, hsub hj⟩

theorem snapshotsFrom_init : SnapshotsFrom (Cluster.init : Cluster n α) where
  installed _ _ _ h := by cases h
  calls call h := by
    rcases h with h | ⟨i, x, hx, _⟩
    · cases h
    · cases hx
  installing _ _ hx := by cases hx
  applied _ _ _ _ h := by cases h

/-- In every run snapshots come from `Snapshot`. -/
theorem exists_snapshotsFrom {ok : Cluster n α → Action n α → Prop} (hc : Reachable ok c) :
    SnapshotsFrom c :=
  invariant_of_sim snapshotsFrom_init (fun hs _ _ h _ hst => h.step hs (step_cases hst)) hc

/-! ## What a service gets -/

/-- What a message to a service stands for was given to Raft: it is a zero cell, a command that a
call of `Start` put at its index in its term, or a snapshot that a call of `Snapshot` handed over
with its index. -/
def ApplyMsg.GivenIn (trace : List (Event n α)) : ApplyMsg α → Prop
  | .command cmd index term => (cmd = none ∧ index = 0 ∧ term = 0) ∨
      ∃ i, .start i cmd index term ∈ trace
  | .snapshot b _ index => ∃ i, .snapshot i index b ∈ trace

/-- **Validity.** In every run, whatever a service gets from Raft was given to Raft by a
service. -/
theorem applied_was_given (hc : Reachable Always c) {i : Fin n} {msg : ApplyMsg α}
    (h : .apply i msg ∈ c.trace) : msg.GivenIn c.trace := by
  cases msg with
  | command cmd index term =>
    refine ((exists_commandsFrom hc).applied i cmd index term h).imp (fun hzero => ?_) id
    cases hzero
    exact ⟨rfl, rfl, rfl⟩
  | snapshot b term index => exact (exists_snapshotsFrom hc).applied i b term index h

/-- What server 1 applies was given to `Start` of server 0. -/
theorem applied_was_given_applyRun :
    .apply 1 (.command (some 7) 1 1) ∈ (afterRun Always applyRun).trace ∧
      (ApplyMsg.command (some 7) 1 1).GivenIn (afterRun Always applyRun).trace := by
  have happly : .apply 1 (.command (some 7) 1 1) ∈ (afterRun Always applyRun).trace := by
    decide +kernel
  exact ⟨happly, applied_was_given (reach_reached _) happly⟩

end DistLabs
