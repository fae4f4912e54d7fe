import DistLabs.Raft.Tracked

/-!
# Exchanges between a leader and a follower

An `exchange` is one round of a leader's replication goroutine with a follower: the request, its
handler and the handler of the reply. `Pair.catchesUp_iff` says when exchanges bring the follower
up to date, for a follower whose committed entries are in the leader's log and a leader whose
`matchIndex` is right: exactly when the first `AppendEntries` that the leader will send does not
start below the follower's snapshot. The follower answers such a request with an empty reply, which
the leader ignores. Otherwise every rejection takes `nextIndex` back, but never below that
snapshot.
-/

namespace DistLabs

open Lib Chronicle

variable {n : Nat} {α : Type}

/-! ## Exchanges -/

/-- One round of the loop in `runHeartBeats` for `server`, with no message lost. `grow` is the
spare capacity of a log that the follower allocates. -/
def exchange (me server : Fin n) (grow : Nat) (leader follower : Raft n α) :
    Option (Raft n α × Raft n α) := do
  match ← leader.buildRequest me server leader.currentTerm with
  | none => return (leader, follower)
  | some (.append args) =>
    let (follower', reply) ← follower.appendEntries args grow
    let (leader', _, _) ← leader.handleAppendEntriesRPCResponse me server args reply
    return (leader', follower')
  | some (.snapshot args) =>
    let (follower', reply, _) ← follower.installSnapshot args grow
    return (leader.handleInstallSnapshotRPCResponse server args reply, follower')

/-- `k` exchanges. -/
def exchanges (me server : Fin n) : (k : Nat) → (grow : Nat → Nat) → (leader follower : Raft n α) →
    Option (Raft n α × Raft n α)
  | 0, _, leader, follower => some (leader, follower)
  | k + 1, grow, leader, follower =>
    (exchange me server (grow 0) leader follower).bind fun p =>
      exchanges me server k (fun i => grow (i + 1)) p.1 p.2

/-- The leader knows that the follower holds its whole log, and rightly so: the logs agree wherever
both have an entry. A sentinel has no command. -/
def CaughtUp (server : Fin n) (leader follower : Raft n α) : Prop :=
  leader.getLastIndex = some (leader.matchIndex server) ∧
    ∀ e ∈ leader.log, ∀ e' ∈ follower.log, e.index = e'.index →
      e.index ≤ leader.matchIndex server →
      e.term = e'.term ∧ (e ∈ leader.log.tail → e' ∈ follower.log.tail → e.command = e'.command)

/-- However much the follower allocates, finitely many exchanges bring it up to date. -/
def CatchesUp (me server : Fin n) (leader follower : Raft n α) : Prop :=
  ∀ grow : Nat → Nat, ∃ k leader' follower',
    exchanges me server k grow leader follower = some (leader', follower') ∧
      CaughtUp server leader' follower'

/-- The `PrevLogIndex` of the first `AppendEntries` that the leader sends, after a snapshot if it
has to send one; `first` is the index of its own sentinel. -/
def Raft.resumeIndex (leader : Raft n α) (server : Fin n) (first : Nat) : Nat :=
  if leader.nextIndex server ≤ first then max (leader.matchIndex server) first
  else leader.nextIndex server - 1

/-- The follower is up to date, or the leader resumes at or past its snapshot. -/
def CanCatchUp (server : Fin n) (leader follower : Raft n α) : Prop :=
  leader.getLastIndex = some (leader.matchIndex server) ∨
    ∃ first ∈ leader.getFirstIndex, ∃ first' ∈ follower.getFirstIndex,
      first' ≤ leader.resumeIndex server first

section
variable {me server : Fin n} {leader follower : Raft n α}

/-- A follower that is up to date needs no exchange. -/
theorem CatchesUp.of_caughtUp (h : CaughtUp server leader follower) :
    CatchesUp me server leader follower := fun _ => ⟨0, leader, follower, rfl, h⟩

/-- One exchange more. -/
theorem CatchesUp.of_exchange
    (h : ∀ g, ∃ leader' follower', exchange me server g leader follower =
      some (leader', follower') ∧ CatchesUp me server leader' follower') :
    CatchesUp me server leader follower := by
  intro grow
  obtain ⟨leader', follower', hex, hc⟩ := h (grow 0)
  obtain ⟨k, leader'', follower'', hrun, hup⟩ := hc fun i => grow (i + 1)
  refine ⟨k + 1, leader'', follower'', ?_, hup⟩
  rw [exchanges, hex]
  exact hrun

/-- If an exchange leads to where the follower does not catch up, it does not catch up before. -/
theorem CatchesUp.exchange (h : CatchesUp me server leader follower)
    (hnot : ¬ CaughtUp server leader follower) {leader' follower' : Raft n α}
    (hex : ∀ g, DistLabs.exchange me server g leader follower = some (leader', follower')) :
    CatchesUp me server leader' follower' := by
  intro grow
  obtain ⟨k, leader'', follower'', hrun, hup⟩ := h fun i => grow (i - 1)
  cases k with
  | zero =>
    cases hrun
    exact absurd hup hnot
  | succ k =>
    rw [exchanges, hex] at hrun
    exact ⟨k, leader'', follower'', hrun, hup⟩

/-- When an exchange changes nothing, no number of them helps. -/
theorem not_catchesUp_of_fixed (hnot : ¬ CaughtUp server leader follower)
    (hex : ∀ g, DistLabs.exchange me server g leader follower = some (leader, follower)) :
    ¬ CatchesUp me server leader follower := by
  intro h
  obtain ⟨k, leader', follower', hrun, hup⟩ := h fun _ => 0
  have hfix : ∀ k grow, exchanges me server k grow leader follower = some (leader, follower) := by
    intro k
    induction k with
    | zero => exact fun _ => rfl
    | succ k ih =>
      intro grow
      rw [exchanges, hex]
      exact ih _
  rw [hfix] at hrun
  cases hrun
  exact hnot hup

end

/-! ## The two sides -/

variable {H : Chron n α} {t : Nat} {tip : Pos} {leader follower : Raft n α} {me server : Fin n}

/-- `rf` leads term `t`. -/
structure Leading (H : Chron n α) (t : Nat) (rf : Raft n α) : Prop where
  elected : H.Elected t
  state : rf.state = .leader
  currentTerm : rf.currentTerm = t
  log : LogOK H (posAt (H.ledger t) (H.ledger t).length) rf.log
  clean : (sentinel rf.log).term = termAt (H.ledger t) (sentinel rf.log).index
  first_le : (sentinel rf.log).index ≤ rf.commitIndex

/-- The log that ends at `tip` and the log of term `t` agree up to index `k`. -/
structure Agrees (H : Chron n α) (tip : Pos) (t k : Nat) : Prop where
  le_tip : k ≤ tip.index
  le : k ≤ (H.ledger t).length
  take : (H.path tip).take k = (H.ledger t).take k

/-- `rf` can follow the leader of term `t`: what it has committed is in that leader's log. -/
structure Following (H : Chron n α) (t : Nat) (tip : Pos) (rf : Raft n α) : Prop where
  alive : rf.state ≠ .dead
  cur : rf.currentTerm ≤ t
  valid : ValidPos H.ledger tip
  log : LogOK H tip rf.log
  clean : Clean H tip rf.log
  first_le : (sentinel rf.log).index ≤ rf.commitIndex
  agrees : Agrees H tip t rf.commitIndex

/-- `rf` takes requests of term `t`, and its snapshot lies on the log of that term. The rest of its
log may conflict with it, also below the snapshot: `InstallSnapshot` does not compare. -/
structure Ready (H : Chron n α) (t : Nat) (tip : Pos) (rf : Raft n α) : Prop where
  alive : rf.state ≠ .dead
  cur : rf.currentTerm ≤ t
  valid : ValidPos H.ledger tip
  log : LogOK H tip rf.log
  sentinel_term : (sentinel rf.log).term = termAt (H.ledger t) (sentinel rf.log).index

/-- A leader and a follower, and what the leader knows of it. -/
structure Pair (H : Chron n α) (t : Nat) (tip : Pos) (server : Fin n)
    (leader follower : Raft n α) : Prop where
  leading : Leading H t leader
  following : Following H t tip follower
  next_le : leader.nextIndex server ≤ (H.ledger t).length + 1
  matched : Agrees H tip t (leader.matchIndex server)

/-- Where two logs agree, their terms do. -/
theorem Agrees.termAt {k i : Nat} (h : Agrees H tip t k) (hi : i ≤ k) :
    Lib.termAt (H.path tip) i = Lib.termAt (H.ledger t) i := termAt_congr h.take hi

/-- The longer of two agreements. -/
theorem Agrees.max {k k' : Nat} (h : Agrees H tip t k) (h' : Agrees H tip t k') :
    Agrees H tip t (max k k') := by
  rcases Nat.le_total k k' with hle | hle
  · rwa [Nat.max_eq_right hle]
  · rwa [Nat.max_eq_left hle]

/-- A server that can follow the leader is ready for its requests. -/
theorem Following.ready (h : Following H t tip follower) : Ready H t tip follower where
  alive := h.alive
  cur := h.cur
  valid := h.valid
  log := h.log
  sentinel_term := by rw [h.clean, h.agrees.termAt h.first_le]

section
variable (hok : H.OK)
include hok

/-- The end of a leader's log is a position. -/
theorem validPos_last (t : Nat) : ValidPos H.ledger (posAt (H.ledger t) (H.ledger t).length) :=
  hok.ledger.validPos_posAt (Nat.le_refl _)

/-- The log that ends there is the leader's. -/
theorem path_last (t : Nat) : H.path (posAt (H.ledger t) (H.ledger t).length) = H.ledger t :=
  (hok.ledger.pathTo_posAt (Nat.le_refl _)).trans (List.take_length ..)

/-- Entries have a term other than 0. -/
theorem termAt_ne_zero {i : Nat} (h0 : i ≠ 0) (hi : i ≤ (H.ledger t).length) :
    termAt (H.ledger t) i ≠ 0 := fun hz =>
  h0 (hok.ledger.index_eq_zero (hok.ledger.validPos_posAt hi) hz)

end

/-- `rf` goes on at index `next` of `server`. -/
def Raft.withNext (rf : Raft n α) (server : Fin n) (next : Nat) : Raft n α :=
  { rf with nextIndex := Function.update rf.nextIndex server next }

@[simp] theorem withNext_nextIndex (rf : Raft n α) (server : Fin n) (next : Nat) :
    (rf.withNext server next).nextIndex server = next := Function.update_self ..

/-- The `nextIndex` after an exchange that succeeded. -/
@[simp] theorem matchUpTo_nextIndex (rf : Raft n α) (server : Fin n) (k : Nat) :
    (rf.matchUpTo server k).nextIndex server = max (rf.matchIndex server) k + 1 :=
  Function.update_self ..

/-- The `matchIndex` after an exchange that succeeded. -/
@[simp] theorem matchUpTo_matchIndex (rf : Raft n α) (server : Fin n) (k : Nat) :
    (rf.matchUpTo server k).matchIndex server = max (rf.matchIndex server) k :=
  Function.update_self ..

namespace Leading

variable (h : Leading H t leader) (hok : H.OK) (hidx : Indexed H)
include h

/-- A term with a leader is not term 0. -/
theorem term_ne_zero (hok : H.OK) : t ≠ 0 := by
  rintro rfl
  exact h.elected hok.ledger.zero

/-- The log of a leader is clean. -/
theorem clean_last (hok : H.OK) :
    Clean H (posAt (H.ledger t) (H.ledger t).length) leader.log := by
  rw [Clean, path_last hok]
  exact h.clean

/-- The sentinel of a leader is within the log of its term. -/
theorem first_le_length : (sentinel leader.log).index ≤ (H.ledger t).length := h.log.le

/-- Only what concerns the follower changes. -/
theorem withIndex (next k : Fin n → Nat) :
    Leading H t { leader with nextIndex := next, matchIndex := k } :=
  ⟨h.elected, h.state, h.currentTerm, h.log, h.clean, h.first_le⟩

/-- The request is a snapshot when the leader has compacted what the follower needs. -/
theorem buildRequest_snapshot (hnext : leader.nextIndex server ≤ (sentinel leader.log).index)
    (me : Fin n) :
    leader.buildRequest me server leader.currentTerm = some (some (.snapshot
      { term := t, leaderId := me, lastIncludedIndex := (sentinel leader.log).index
        lastIncludedTerm := (sentinel leader.log).term
        snapshot := leader.persister.snapshot })) := by
  simp only [Raft.buildRequest, h.log.getFirstIndex, h.log.getFirstTerm, Option.bind_eq_bind,
    Option.bind_some, Option.pure_def, h.currentTerm]
  rw [if_neg (not_not.2 h.state), if_pos hnext]

include hok hidx

/-- The last index of a leader is the length of the log of its term. -/
theorem getLastIndex : leader.getLastIndex = some (H.ledger t).length :=
  h.log.getLastIndex (validPos_last hok t) hidx

/-- Else it is the rest of the log. -/
theorem buildRequest_append (hnext : (sentinel leader.log).index < leader.nextIndex server)
    (hle : leader.nextIndex server ≤ (H.ledger t).length + 1) (me : Fin n) :
    ∃ args, leader.buildRequest me server leader.currentTerm = some (some (.append args)) ∧
      args.term = t ∧ args.prevLogIndex = leader.nextIndex server - 1 ∧
      Slice H args t (H.ledger t).length := by
  have htip := validPos_last hok t
  have hlast : (posAt (H.ledger t) (H.ledger t).length).index = (H.ledger t).length := rfl
  have hlen := h.log.length htip
  have hterm := h.log.getTerm_of_clean htip (h.clean_last hok) (i := leader.nextIndex server - 1)
    (by omega) (by omega)
  rw [path_last hok] at hterm
  have hnx : leader.getNextIndex = some ((H.ledger t).length + 1) := h.log.getNextIndex htip hidx
  simp only [Raft.buildRequest, h.log.getFirstIndex, hnx, hterm, Option.bind_eq_bind,
    Option.bind_some, Option.pure_def, h.currentTerm]
  rw [if_neg (not_not.2 h.state), if_neg (Nat.not_le.2 hnext), if_neg (by omega)]
  refine ⟨_, rfl, rfl, rfl, Nat.le_refl _, ?_, rfl, ?_⟩
  · show leader.nextIndex server - 1 ≤ _
    omega
  · exact h.log.entries_from (path_last hok t) hnext hle

omit hok in
/-- What a leader does with a successful reply. -/
theorem handle_success {args : AppendEntriesArgs n α} (hterm : args.term = t)
    (ha : Slice H args t (H.ledger t).length)
    (hmatch : leader.matchIndex server ≤ (H.ledger t).length) (me : Fin n) :
    ∃ leader' assigned, leader.handleAppendEntriesRPCResponse me server args
        { term := t, success := true } = some (leader', false, assigned) ∧
      leader'.log = leader.log ∧ leader'.matchIndex server = (H.ledger t).length := by
  have hlog : Contiguous (leader.matchUpTo server (H.ledger t).length).log := h.log.contiguous hidx
  obtain ⟨ci, assigned, hadv⟩ := hlog.exists_advanceCommit h.first_le me
  rw [Raft.handleAppendEntriesRPCResponse, if_pos ⟨h.state, h.currentTerm.trans hterm.symm⟩,
    if_pos h.currentTerm.symm, if_pos rfl, ha.length, hadv]
  refine ⟨_, assigned, rfl, rfl, ?_⟩
  exact (matchUpTo_matchIndex ..).trans (Nat.max_eq_right hmatch)

omit hok hidx in
/-- What a leader does with a rejection. -/
theorem handle_rejection {args : AppendEntriesArgs n α} {reply : AppendEntriesReply}
    {leader' : Raft n α} (hterm : args.term = t) (hr : reply.term = t)
    (hsucc : reply.success = false) (hback : leader.backUp server args reply = some leader')
    (me : Fin n) :
    leader.handleAppendEntriesRPCResponse me server args reply = some (leader', true, []) := by
  rw [Raft.handleAppendEntriesRPCResponse, if_pos ⟨h.state, h.currentTerm.trans hterm.symm⟩,
    if_pos (hr.trans h.currentTerm.symm), hsucc, if_neg Bool.false_ne_true, hback]
  rfl

omit hok hidx in
/-- A follower whose log is too short says where it ends. -/
theorem backUp_short (args : AppendEntriesArgs n α) (k : Nat) :
    leader.backUp server args { term := t, conflictIndex := k, conflictTerm := -1 } =
      some (leader.withNext server (max k (leader.matchIndex server + 1))) := by
  rw [Raft.backUp, h.log.getFirstIndex]
  rfl

/-- After a conflict the leader goes on after its own last entry of the conflicting term `T`, or,
if it has none, at the follower's first one. -/
theorem backUp_conflict {args : AppendEntriesArgs n α}
    (hprev : args.prevLogIndex ≤ (H.ledger t).length) (server : Fin n) (k : Nat) {T : Nat}
    (hT : T ≠ 0) :
    ∃ next, leader.backUp server args { term := t, conflictIndex := k, conflictTerm := T } =
        some (leader.withNext server next) ∧
      (next = max k (leader.matchIndex server + 1) ∧
          (∀ i, (sentinel leader.log).index ≤ i → i < args.prevLogIndex →
            termAt (H.ledger t) i ≠ T) ∨
        ∃ i, next = i + 1 ∧ (sentinel leader.log).index ≤ i ∧ i < args.prevLogIndex ∧
          termAt (H.ledger t) i = T ∧
          ∀ i', i < i' → i' < args.prevLogIndex → termAt (H.ledger t) i' ≠ T) := by
  obtain ⟨e, he, hcase⟩ := exists_conflictEnd hok hidx h.log (validPos_last hok t)
    (h.clean_last hok) T (Nat.le_succ_of_le hprev)
  rw [path_last hok] at hcase
  have hpos : (T : Int) > 0 := by omega
  refine ⟨_, backUp_eq h.log.getFirstIndex (by rw [if_pos hpos]; exact he), ?_⟩
  rcases hcase with ⟨rfl, hnone⟩ | ⟨i, rfl, hfirst, hlt, hi, hlast⟩
  · exact .inl ⟨rfl, hnone⟩
  · have hi0 : i ≠ 0 := by
      rintro rfl
      exact hT hi.symm
    refine .inr ⟨i, ?_, hfirst, hlt, hi, hlast⟩
    rw [if_pos (by omega)]
    rfl

end Leading

/-! ## The follower's answers -/

/-- A follower that is not in a later term takes a request of term `t` as one of its own term. -/
theorem stepDown_currentTerm_of_le (h : follower.currentTerm ≤ t) :
    (follower.stepDown t).currentTerm = t := by
  rw [Raft.stepDown]
  split
  · rfl
  · omega

/-- The follower as it enters the term `t` of a request. -/
def Raft.enter (rf : Raft n α) (t : Nat) : Raft n α := (rf.stepDown t).toFollower

theorem enter_log (rf : Raft n α) (t : Nat) : (rf.enter t).log = rf.log := stepDown_log ..

theorem enter_commitIndex (rf : Raft n α) (t : Nat) : (rf.enter t).commitIndex = rf.commitIndex :=
  stepDown_commitIndex ..

theorem enter_currentTerm (h : follower.currentTerm ≤ t) : (follower.enter t).currentTerm = t :=
  stepDown_currentTerm_of_le h

/-- Entering a term twice is entering it once. -/
theorem enter_enter (h : follower.currentTerm ≤ t) :
    (follower.enter t).enter t = follower.enter t := by
  rw [Raft.enter, Raft.stepDown, if_neg (by rw [enter_currentTerm h]; exact Nat.lt_irrefl t)]
  rfl

/-- A live follower enters the leader's term and receives the entries. -/
theorem appendEntries_eq {args : AppendEntriesArgs n α} (halive : follower.state ≠ .dead)
    (hcur : follower.currentTerm ≤ t) (hterm : args.term = t) (g : Nat) :
    follower.appendEntries args g = (follower.enter t).receiveEntries args g := by
  subst hterm
  rw [Raft.appendEntries, if_neg halive, if_neg (not_not.2 (stepDown_currentTerm_of_le hcur).symm)]
  rfl

/-- A live follower enters the leader's term and receives the snapshot. -/
theorem installSnapshot_eq {args : InstallSnapshotArgs n} (halive : follower.state ≠ .dead)
    (hcur : follower.currentTerm ≤ t) (hterm : args.term = t) (g : Nat) :
    follower.installSnapshot args g = ((follower.enter t).receiveSnapshot args g).map
      fun p => (p.1, { term := t }, p.2) := by
  subst hterm
  rw [Raft.installSnapshot, if_neg halive,
    if_neg (not_not.2 (stepDown_currentTerm_of_le hcur).symm),
    stepDown_currentTerm_of_le hcur, Raft.enter, Option.map_eq_bind]
  rfl

/-- A server that is ready is still ready in the leader's term. -/
theorem Ready.enter (h : Ready H t tip follower) : Ready H t tip (follower.enter t) where
  alive := nofun
  cur := Nat.le_of_eq (enter_currentTerm h.cur)
  valid := h.valid
  log := by rw [enter_log]; exact h.log
  sentinel_term := by rw [enter_log]; exact h.sentinel_term

/-- A server that can follow can still follow in the leader's term. -/
theorem Following.enter (h : Following H t tip follower) :
    Following H t tip (follower.enter t) where
  alive := nofun
  cur := Nat.le_of_eq (enter_currentTerm h.cur)
  valid := h.valid
  log := by rw [enter_log]; exact h.log
  clean := by rw [enter_log]; exact h.clean
  first_le := by rw [enter_log, enter_commitIndex]; exact h.first_le
  agrees := by rw [enter_commitIndex]; exact h.agrees

/-! ## Logs that lie on the leader's -/

/-- Up to index `k` the log `log` holds entries of the log of term `t`; its sentinel has no
command. -/
def OnLedger (H : Chron n α) (t k : Nat) (log : List (LogEntry α)) : Prop :=
  ∀ e ∈ log, e.index ≤ k → e.term = termAt (H.ledger t) e.index ∧
    (e ∈ log.tail → (H.ledger t)[e.index - 1]? = some e)

/-- A log that agrees with the log of a term lies on it. -/
theorem onLedger_of {rf : Raft n α} (hidx : Indexed H) {k : Nat} (h : LogOK H tip rf.log)
    (hs : (sentinel rf.log).term = termAt (H.ledger t) (sentinel rf.log).index)
    (hk : (sentinel rf.log).index < k → (H.path tip).take k = (H.ledger t).take k) :
    OnLedger H t k rf.log := by
  have htail : ∀ e ∈ rf.log.tail, e.index ≤ k → (H.ledger t)[e.index - 1]? = some e := by
    intro e he hek
    rw [h.eq, List.tail_cons] at he
    obtain ⟨j, hj⟩ := List.getElem?_of_mem he
    rw [List.getElem?_drop] at hj
    have hi := hidx.path hj
    have heq := congrArg (·[e.index - 1]?) (hk (by omega))
    simp only [List.getElem?_take, if_pos (show e.index - 1 < k by omega)] at heq
    rw [← heq, ← hj]
    congr 1
    omega
  intro e he hek
  refine ⟨?_, fun he' => htail e he' hek⟩
  rw [h.eq, List.mem_cons] at he
  rcases he with rfl | he
  · exact hs
  · have hget := htail e (by rw [h.eq]; exact he) hek
    have hpos : 0 < e.index := by
      obtain ⟨j, hj⟩ := List.getElem?_of_mem he
      rw [List.getElem?_drop] at hj
      rw [hidx.path hj]
      omega
    rw [← termAt_of_getElem? hget, Nat.sub_add_cancel hpos]

/-- The leader's own log. -/
theorem Leading.onLedger (h : Leading H t leader) (hok : H.OK) (hidx : Indexed H) (k : Nat) :
    OnLedger H t k leader.log :=
  onLedger_of hidx h.log h.clean fun _ => by rw [path_last hok]

/-- Two logs that lie on the log of one term are up to date with each other. -/
theorem caughtUp_of (hlast : leader.getLastIndex = some (leader.matchIndex server))
    (hl : OnLedger H t (leader.matchIndex server) leader.log)
    (hf : OnLedger H t (leader.matchIndex server) follower.log) :
    CaughtUp server leader follower := by
  refine ⟨hlast, fun e he e' he' hi hle => ?_⟩
  obtain ⟨h1, h2⟩ := hl e he hle
  obtain ⟨h3, h4⟩ := hf e' he' (hi ▸ hle)
  refine ⟨by rw [h1, h3, hi], fun htail htail' => ?_⟩
  have h5 := h2 htail
  rw [hi, h4 htail'] at h5
  rw [Option.some.inj h5]

/-! ## Catching up -/

section
variable (hok : H.OK) (hidx : Indexed H)
include hok hidx

/-- What the leader knows to match does match. -/
theorem Pair.caughtUp (h : Pair H t tip server leader follower)
    (hlast : leader.getLastIndex = some (leader.matchIndex server)) :
    CaughtUp server leader follower :=
  caughtUp_of hlast (h.leading.onLedger hok hidx _)
    (onLedger_of hidx h.following.log h.following.ready.sentinel_term fun _ => h.matched.take)

/-- When the follower stores the rest of the leader's log, it is up to date. -/
theorem caughtUp_of_stored (hl : Leading H t leader) (hf : Ready H t tip follower)
    {follower' : Raft n α}
    (hst : Stored H tip follower follower' t (H.ledger t).length) {leader' : Raft n α}
    (hlog' : leader'.log = leader.log)
    (hmatch : leader'.matchIndex server = (H.ledger t).length) :
    CaughtUp server leader' follower' := by
  refine caughtUp_of (H := H) (t := t) ?_ ?_ ?_
  · rw [hmatch, ← hl.getLastIndex hok hidx, Raft.getLastIndex, hlog', Raft.getLastIndex]
  · rw [hlog']
    exact hl.onLedger hok hidx _
  · rw [hmatch]
    rcases hst.log with ⟨heq, o⟩ | ⟨hnew, _⟩
    · rw [heq]
      exact onLedger_of hidx hf.log hf.sentinel_term o.agree
    · refine onLedger_of hidx hnew (by rw [hst.sentinel_eq]; exact hf.sentinel_term) fun _ => ?_
      rw [path_last hok]

/-- **One exchange suffices** when the previous entry of the request matches. -/
theorem exchange_matched (hl : Leading H t leader) (hf : Ready H t tip follower)
    (hnext : (sentinel leader.log).index < leader.nextIndex server)
    (hle : leader.nextIndex server ≤ (H.ledger t).length + 1)
    (hmatch : leader.matchIndex server ≤ (H.ledger t).length)
    (hterm : follower.getTerm (leader.nextIndex server - 1) =
      some (termAt (H.ledger t) (leader.nextIndex server - 1))) (me : Fin n) (g : Nat) :
    ∃ leader' follower', exchange me server g leader follower = some (leader', follower') ∧
      CaughtUp server leader' follower' := by
  obtain ⟨args, hb, hat, hprev, ha⟩ := hl.buildRequest_append hok hidx hnext hle me
  obtain ⟨leader', assigned, hh, hlog', hm'⟩ := hl.handle_success hidx hat ha hmatch me
  have hf' := hf.enter
  have hterm' : (follower.enter t).getTerm args.prevLogIndex = some args.prevLogTerm := by
    rw [ha.prevTerm, hprev, ← hterm, Raft.getTerm, Raft.getTerm, Raft.getFirstIndex,
      Raft.getFirstIndex, enter_log]
  obtain ⟨follower', hr, hst⟩ := exists_stored hok hidx hf'.log hf.valid ha g hterm'
  rw [← appendEntries_eq hf.alive hf.cur hat, enter_currentTerm hf.cur] at hr
  refine ⟨leader', follower', ?_, caughtUp_of_stored hok hidx hl hf' hst hlog' hm'⟩
  simp only [exchange, hb, hr, hh, Option.bind_eq_bind, Option.bind_some, Option.pure_def]

/-- A rejection takes the leader back, but not below the follower's snapshot. -/
theorem Pair.rejected (h : Pair H t tip server leader follower) {args : AppendEntriesArgs n α}
    (hat : args.term = t) (hprev : args.prevLogIndex ≤ (H.ledger t).length)
    (hfirst : (sentinel follower.log).index ≤ args.prevLogIndex) {reply : AppendEntriesReply}
    {follower' : Raft n α}
    (hans : Answered H tip (follower.enter t) args t (H.ledger t).length follower' reply)
    (hsucc : reply.success = false) (me : Fin n) :
    ∃ next ≤ args.prevLogIndex,
      leader.handleAppendEntriesRPCResponse me server args reply =
        some (leader.withNext server next, true, []) ∧ follower' = follower.enter t ∧
      (sentinel follower.log).index ≤
        (leader.withNext server next).resumeIndex server (sentinel leader.log).index := by
  have hl := h.leading
  have hf := h.following
  have hct : (follower.enter t).currentTerm = t := enter_currentTerm hf.cur
  have hfl : (sentinel follower.log).index ≤ tip.index := hf.log.le
  have hmtip : leader.matchIndex server ≤ tip.index := h.matched.le_tip
  have hresume : ∀ next,
      (leader.withNext server next).resumeIndex server (sentinel leader.log).index =
        if next ≤ (sentinel leader.log).index then
          max (leader.matchIndex server) (sentinel leader.log).index
        else next - 1 := by
    intro next
    rw [Raft.resumeIndex, withNext_nextIndex]
    rfl
  cases hans with
  | below hlt =>
    rw [enter_log] at hlt
    omega
  | short hlt =>
    refine ⟨_, ?_,
      hl.handle_rejection hat hct hsucc (by rw [hct]; exact hl.backUp_short args _) me, rfl, ?_⟩
    · omega
    · rw [hresume]
      split <;> omega
  | @conflict r hr hrp hpt hne hsame =>
    rw [enter_log] at hr
    -- the logs do not agree at the previous entry, so what matches lies below
    have hdisagree : ∀ {k}, Agrees H tip t k → k < args.prevLogIndex := fun {k} hk =>
      Nat.lt_of_not_le fun hle => hne (hk.termAt hle)
    have hm := hdisagree h.matched
    have hc := Nat.lt_of_le_of_lt hf.first_le (hdisagree hf.agrees)
    have hshared := hf.agrees.termAt hf.first_le
    have hT : termAt (H.path tip) args.prevLogIndex ≠ 0 := by
      rw [termAt_pathTo hpt]
      exact termAt_ne_zero hok (by omega) (Nat.le_trans hpt hf.valid.1)
    obtain ⟨next, hback, hcase⟩ := hl.backUp_conflict hok hidx hprev server r hT
    refine ⟨next, ?_, hl.handle_rejection hat hct hsucc (by rw [hct]; exact hback) me, rfl, ?_⟩
    · rcases hcase with ⟨rfl, _⟩ | ⟨i, rfl, _, hi, _⟩ <;> omega
    · rw [hresume]
      rcases hcase with ⟨rfl, hnone⟩ | ⟨i, rfl, hi, hip, hit, hlast⟩
      · split
        · omega
        · -- else the follower's conflicting entries start at its snapshot, and the leader has them
          refine Nat.le_of_not_lt fun hlt => hnone (sentinel follower.log).index (by omega) hc ?_
          rw [← hshared]
          exact hsame _ (by omega) hc
      · rw [if_neg (by omega), Nat.add_sub_cancel]
        -- terms do not decrease, so the leader's last entry of the term is not below the snapshot
        refine Nat.le_of_not_lt fun hlt => hlast _ hlt hc (Nat.le_antisymm ?_ ?_)
        · rw [← hshared]
          exact termAt_path_mono hok hf.valid (Nat.le_of_lt hc) hpt
        · rw [← hit]
          exact hok.ledger.mono _ _ _ (Nat.le_of_lt hlt) (by omega)
  | stored => cases hsucc

/-- The exchange of a snapshot. -/
theorem exchange_snapshot (hl : Leading H t leader) (hf : Following H t tip follower)
    (hnext : leader.nextIndex server ≤ (sentinel leader.log).index) (me : Fin n) (g : Nat) :
    ∃ args : InstallSnapshotArgs n, args.lastIncludedIndex = (sentinel leader.log).index ∧
      args.lastIncludedTerm = (sentinel leader.log).term ∧ ∃ follower',
      exchange me server g leader follower =
        some (leader.matchUpTo server (sentinel leader.log).index, follower') ∧
      (args.lastIncludedIndex ≤ follower.commitIndex ∧ follower' = follower.enter t ∨
        Taken H tip (follower.enter t) follower' args t) := by
  have hf' := hf.enter
  have hb := hl.buildRequest_snapshot hnext me
  obtain ⟨follower', msg, hr, hcase⟩ := exists_receiveSnapshot hok hidx hf'.log hf'.valid
    hf'.first_le ⟨t, me, (sentinel leader.log).index, (sentinel leader.log).term,
      leader.persister.snapshot⟩ hl.first_le_length hl.clean g
  rw [enter_commitIndex] at hcase
  refine ⟨_, rfl, rfl, follower', ?_, hcase⟩
  simp only [exchange, hb, Option.bind_eq_bind, Option.bind_some, Option.pure_def]
  rw [installSnapshot_eq hf.alive hf.cur rfl, hr, Option.map_some, Option.bind_some]
  simp only [Raft.handleInstallSnapshotRPCResponse]
  rw [if_pos ⟨hl.state, hl.currentTerm⟩, if_pos hl.currentTerm.symm]

omit hidx in
/-- After a snapshot the follower has the previous entry of the next request. -/
theorem Pair.matched_of_snapshot (h : Pair H t tip server leader follower)
    {args : InstallSnapshotArgs n} {follower' : Raft n α}
    (hi : args.lastIncludedIndex = (sentinel leader.log).index)
    (ht : args.lastIncludedTerm = (sentinel leader.log).term)
    (hres : (sentinel follower.log).index ≤
      max (leader.matchIndex server) (sentinel leader.log).index)
    (hcase : args.lastIncludedIndex ≤ follower.commitIndex ∧ follower' = follower.enter t ∨
      Taken H tip (follower.enter t) follower' args t) :
    ∃ tip', Ready H t tip' follower' ∧
      follower'.getTerm (max (leader.matchIndex server) (sentinel leader.log).index) =
        some (termAt (H.ledger t)
          (max (leader.matchIndex server) (sentinel leader.log).index)) := by
  have hf := h.following.enter
  have hfl := h.leading.first_le_length
  have hm := h.matched
  rcases hcase with ⟨hold, rfl⟩ | htaken
  · -- the follower has committed that much already
    rw [hi, ← enter_commitIndex follower t] at hold
    have hag := hm.max ⟨Nat.le_trans hold hf.agrees.le_tip, hfl, take_congr hf.agrees.take hold⟩
    refine ⟨tip, hf.ready, ?_⟩
    rw [hf.log.getTerm_of_clean hf.valid hf.clean (by rw [enter_log]; exact hres) hag.le_tip,
      hag.termAt (Nat.le_refl _)]
  · have hready : ∀ {tip'}, ValidPos H.ledger tip' → LogOK H tip' follower'.log →
        Ready H t tip' follower' := fun hvalid hlog =>
      { alive := by rw [htaken.state]; exact hf.alive
        cur := by rw [htaken.currentTerm]; exact hf.cur
        valid := hvalid
        log := hlog
        sentinel_term := by
          rw [htaken.sentinel_eq, hi, ht]
          exact h.leading.clean }
    have hsent : (sentinel follower'.log).index = (sentinel leader.log).index := by
      rw [htaken.sentinel_eq, hi]
    have hsnap : ∀ {tip'}, Ready H t tip' follower' →
        follower'.getTerm (sentinel leader.log).index =
          some (termAt (H.ledger t) (sentinel leader.log).index) := fun hr => by
      rw [← hsent, hr.log.getTerm_first, hr.sentinel_term]
    have hmtip := hm.le_tip
    rcases htaken.log with ⟨hshort, hlog⟩ | ⟨hlong, hlog⟩
    · rw [hi] at hshort hlog
      have hr := hready (hok.ledger.validPos_posAt hfl) hlog
      refine ⟨_, hr, ?_⟩
      rw [Nat.max_eq_right (Nat.le_trans hmtip hshort)]
      exact hsnap hr
    · have hr := hready hf.valid hlog
      refine ⟨_, hr, ?_⟩
      rcases Nat.lt_or_ge (sentinel leader.log).index (leader.matchIndex server) with hlt | hge
      · rw [Nat.max_eq_left (Nat.le_of_lt hlt), hlog.getTerm hf.valid (by rw [hsent]; exact hlt)
          hmtip, hm.termAt (Nat.le_refl _)]
      · rw [Nat.max_eq_right hge]
        exact hsnap hr

/-- After a snapshot one more exchange suffices. -/
theorem Pair.catchesUp_snapshot (h : Pair H t tip server leader follower)
    (hnext : leader.nextIndex server ≤ (sentinel leader.log).index)
    (hres : (sentinel follower.log).index ≤
      max (leader.matchIndex server) (sentinel leader.log).index) (me : Fin n) :
    CatchesUp me server leader follower := by
  refine .of_exchange fun g => ?_
  obtain ⟨args, hi, ht, follower', hex, hcase⟩ :=
    exchange_snapshot hok hidx h.leading h.following hnext me g
  refine ⟨_, _, hex, .of_exchange fun g' => ?_⟩
  obtain ⟨tip', hr, hterm⟩ := h.matched_of_snapshot hok hi ht hres hcase
  have hle := Nat.max_le.2 ⟨h.matched.le, h.leading.first_le_length⟩
  have hl' : Leading H t (leader.matchUpTo server (sentinel leader.log).index) :=
    h.leading.withIndex _ _
  obtain ⟨leader'', follower'', hex', hup⟩ := exchange_matched hok hidx hl' hr
    (by rw [matchUpTo_nextIndex]; exact Nat.lt_succ_of_le (Nat.le_max_right ..))
    (by rw [matchUpTo_nextIndex]; exact Nat.succ_le_succ hle)
    (by rw [matchUpTo_matchIndex]; exact hle)
    (by rw [matchUpTo_nextIndex, Nat.add_sub_cancel]; exact hterm) me g'
  exact ⟨_, _, hex', .of_caughtUp hup⟩

/-- **Convergence.** A leader that resumes at or past the follower's snapshot brings it up to date:
every rejection takes `nextIndex` back, and never below the snapshot. -/
theorem Pair.catchesUp (me : Fin n) (h : Pair H t tip server leader follower)
    (hres : (sentinel follower.log).index ≤
      leader.resumeIndex server (sentinel leader.log).index) :
    CatchesUp me server leader follower := by
  induction hnx : leader.nextIndex server using Nat.strong_induction_on
    generalizing leader follower with
  | _ nx ih =>
  rw [Raft.resumeIndex] at hres
  split at hres
  · next hnext => exact h.catchesUp_snapshot hok hidx hnext hres me
  next hnext =>
  have hl := h.leading
  have hf := h.following
  obtain ⟨args, hb, hat, hprev, ha⟩ :=
    hl.buildRequest_append hok hidx (Nat.lt_of_not_le hnext) h.next_le me
  refine .of_exchange fun g => ?_
  obtain ⟨follower', reply, hr, hans⟩ :=
    exists_receiveEntries hok hidx hf.enter.log hf.valid hf.enter.clean ha g
  rw [← appendEntries_eq hf.alive hf.cur hat] at hr
  cases hsucc : reply.success with
  | true =>
    cases hans with
    | stored hst =>
      rw [enter_currentTerm hf.cur] at hr
      obtain ⟨leader', assigned, hh, hlog', hm'⟩ :=
        hl.handle_success hidx hat ha h.matched.le me
      refine ⟨leader', follower', ?_,
        .of_caughtUp (caughtUp_of_stored hok hidx hl hf.enter.ready hst hlog' hm')⟩
      simp only [exchange, hb, hr, hh, Option.bind_eq_bind, Option.bind_some, Option.pure_def]
    | below | short | conflict => cases hsucc
  | false =>
    obtain ⟨next, hnext', hh, rfl, hres'⟩ := h.rejected hok hidx hat ha.prev_le
      (by rw [hprev]; exact hres) hans hsucc me
    have h' : Pair H t tip server (leader.withNext server next) (follower.enter t) := by
      refine ⟨hl.withIndex _ _, hf.enter, ?_, h.matched⟩
      have := h.next_le
      rw [withNext_nextIndex]
      omega
    refine ⟨_, _, ?_, ih next (by omega) h' ?_ (withNext_nextIndex ..)⟩
    · simp only [exchange, hb, hr, hh, Option.bind_eq_bind, Option.bind_some, Option.pure_def]
    · rw [enter_log]
      exact hres'

/-! ## Staying behind -/

/-- A request that starts below the follower's snapshot gets an empty reply, which the leader
ignores. -/
theorem Pair.exchange_below (h : Pair H t tip server leader follower)
    (hnext : (sentinel leader.log).index < leader.nextIndex server)
    (hbelow : leader.nextIndex server - 1 < (sentinel follower.log).index) (me : Fin n) (g : Nat) :
    exchange me server g leader follower = some (leader, follower.enter t) := by
  have hl := h.leading
  have hf := h.following
  obtain ⟨args, hb, hat, hprev, ha⟩ := hl.buildRequest_append hok hidx hnext h.next_le me
  have hr : follower.appendEntries args g = some (follower.enter t, {}) := by
    rw [appendEntries_eq hf.alive hf.cur hat, Raft.receiveEntries, hf.enter.log.getFirstIndex,
      Option.bind_eq_bind, Option.bind_some, if_pos (by rw [hprev, enter_log]; exact hbelow)]
    rfl
  have hh : leader.handleAppendEntriesRPCResponse me server args {} =
      some (leader, false, []) := by
    have h0 := hl.term_ne_zero hok
    rw [Raft.handleAppendEntriesRPCResponse, if_pos ⟨hl.state, hl.currentTerm.trans hat.symm⟩,
      hl.currentTerm, if_neg (fun h => h0 h.symm), if_neg (Nat.not_lt_zero t)]
  simp only [exchange, hb, hr, hh, Option.bind_eq_bind, Option.bind_some, Option.pure_def]

/-- A follower whose snapshot is past the leader's `PrevLogIndex` never catches up. -/
theorem Pair.not_catchesUp_below (h : Pair H t tip server leader follower)
    (hnot : leader.getLastIndex ≠ some (leader.matchIndex server))
    (hnext : (sentinel leader.log).index < leader.nextIndex server)
    (hbelow : leader.nextIndex server - 1 < (sentinel follower.log).index) (me : Fin n) :
    ¬ CatchesUp me server leader follower := by
  intro hcu
  have h' : Pair H t tip server leader (follower.enter t) :=
    ⟨h.leading, h.following.enter, h.next_le, h.matched⟩
  refine not_catchesUp_of_fixed (fun hc => hnot hc.1) (fun g => ?_)
    (hcu.exchange (fun hc => hnot hc.1) (h.exchange_below hok hidx hnext hbelow me))
  have hex := h'.exchange_below hok hidx hnext (by rw [enter_log]; exact hbelow) me g
  rwa [enter_enter h.following.cur] at hex

/-- **Stalling.** A leader that resumes below the follower's snapshot never gets further. -/
theorem Pair.not_catchesUp (h : Pair H t tip server leader follower)
    (hnot : leader.getLastIndex ≠ some (leader.matchIndex server))
    (hres : leader.resumeIndex server (sentinel leader.log).index <
      (sentinel follower.log).index) (me : Fin n) :
    ¬ CatchesUp me server leader follower := by
  rw [Raft.resumeIndex] at hres
  split at hres
  swap
  · next hnext => exact h.not_catchesUp_below hok hidx hnot (Nat.lt_of_not_le hnext) hres me
  next hnext =>
  have hf := h.following
  have hci := Nat.lt_of_lt_of_le hres hf.first_le
  -- the follower refuses the leader's snapshot, which is older than its own
  have hex : ∀ g, exchange me server g leader follower =
      some (leader.matchUpTo server (sentinel leader.log).index, follower.enter t) := fun g => by
    obtain ⟨args, hi, _, follower', hex, ⟨_, rfl⟩ | htaken⟩ :=
      exchange_snapshot hok hidx h.leading hf hnext me g
    · exact hex
    · have hlt := htaken.commit_lt
      rw [enter_commitIndex, hi] at hlt
      omega
  have hle := hf.agrees.le
  have hag : Agrees H tip t (max (leader.matchIndex server) (sentinel leader.log).index) :=
    ⟨Nat.le_trans (Nat.le_of_lt hci) hf.agrees.le_tip, by omega,
      take_congr hf.agrees.take (Nat.le_of_lt hci)⟩
  have h' : Pair H t tip server (leader.matchUpTo server (sentinel leader.log).index)
      (follower.enter t) := by
    refine ⟨h.leading.withIndex _ _, hf.enter, ?_, ?_⟩
    · rw [matchUpTo_nextIndex]
      omega
    · rw [matchUpTo_matchIndex]
      exact hag
  intro hcu
  refine h'.not_catchesUp_below hok hidx ?_ ?_ ?_ me (hcu.exchange (fun hc => hnot hc.1) hex)
  · rw [h'.leading.getLastIndex hok hidx, matchUpTo_matchIndex]
    intro heq
    have := Option.some.inj heq
    omega
  · rw [matchUpTo_nextIndex]
    exact Nat.lt_succ_of_le (Nat.le_max_right ..)
  · rw [matchUpTo_nextIndex, Nat.add_sub_cancel, enter_log]
    exact hres

/-- Whether a follower catches up can be read off the two servers. -/
theorem Pair.catchesUp_iff (h : Pair H t tip server leader follower) (me : Fin n) :
    CatchesUp me server leader follower ↔ CanCatchUp server leader follower := by
  have hcan : CanCatchUp server leader follower ↔
      leader.getLastIndex = some (leader.matchIndex server) ∨
        (sentinel follower.log).index ≤
          leader.resumeIndex server (sentinel leader.log).index := by
    simp [CanCatchUp, h.leading.log.getFirstIndex, h.following.log.getFirstIndex]
  rw [hcan]
  constructor
  · intro hcu
    by_contra hno
    rw [not_or, Nat.not_le] at hno
    exact h.not_catchesUp hok hidx hno.1 hno.2 me hcu
  · rintro (hlast | hres)
    · exact .of_caughtUp (h.caughtUp hok hidx hlast)
    · exact h.catchesUp hok hidx me hres

end

end DistLabs
