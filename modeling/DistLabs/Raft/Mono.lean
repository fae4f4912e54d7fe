import DistLabs.Lib.Replica
import DistLabs.Raft.Inv

/-!
# The invariant is stable under extension

A step of one server extends the chronicle. What was said about calls in flight, events and
goroutines stays true (the `mono` lemmas), and so does what was said about a server that the step
left alone (`RaftOK.mono`, under `Frame`). `Moves H H' p` packages the chronicle side of a step of
server `p`.
-/

namespace DistLabs

open Lib Chronicle

variable {n : Nat} {α : Type} {m : Mode} {H H' H'' : Chron n α}

/-- What a leader has appended stays appended. -/
theorem Minted.mono (e : Ext H H') {x : LogEntry α} (h : Minted H x) : Minted H' x :=
  ⟨h.1, getElem?_grown (e.ledger _) h.2⟩

/-- What was chosen stays chosen. -/
theorem Chosen.mono (e : Ext H H') {x : LogEntry α} (h : Chosen H x) : Chosen H' x := by
  obtain ⟨T, k, hd, h0, hk, hx⟩ := h
  exact ⟨T, k, e.done T k hd, h0, hk, getElem?_grown (e.ledger T) hx⟩

/-- What may be sent to a service stays so. -/
theorem SentOK.mono (e : Ext H H') {x : LogEntry α} (h : SentOK m H x) : SentOK m H' x :=
  ⟨h.minted.imp id (·.mono e), h.chosen.imp id (·.mono e)⟩

/-- What is known to be committed stays known, in later terms as well. -/
theorem Known.mono (e : Ext H H') {V V' i : Nat} (hV : V ≤ V') (h : Known H V i) :
    Known H' V' i := by
  rcases h with h | ⟨T, k, hd, hk, hT⟩
  · exact .inl h
  · exact .inr ⟨T, k, e.done T k hd, hk, Nat.le_trans hT hV⟩

/-- What is known at an index is known below it. -/
theorem Known.of_le {V i j : Nat} (h : Known H V i) (hj : j ≤ i) : Known H V j := by
  rcases h with h | ⟨T, k, hd, hk, hT⟩
  · exact .inl (by omega)
  · exact .inr ⟨T, k, hd, Nat.le_trans hj hk, hT⟩

/-- A log up to a position is still right when leaders' logs grow. -/
theorem LogOK.mono (e : Ext H H') {tip : Pos} (htip : ValidPos H.ledger tip)
    {log : List (LogEntry α)} (h : LogOK H tip log) : LogOK H' tip log where
  eq := by rw [e.path htip]; exact h.eq
  command := h.command
  valid := e.validPos h.valid
  le := h.le
  tip_eq := h.tip_eq

/-- What is behind the log is still right. -/
theorem SpareOK.mono (e : Ext H H') {log spare : List (LogEntry α)} (h : SpareOK H log spare) :
    SpareOK H' log spare := fun k x hx =>
  (h k x hx).imp id fun ⟨h1, h2⟩ => ⟨h1, h2.mono e⟩

/-- A sentinel is still right as long as the server's last position is the same. -/
theorem SentinelOK.mono (hok : H.OK) (e : Ext H H') {i : Fin n} (htip : H'.tip i = H.tip i)
    {s : LogEntry α} (h : SentinelOK m H i s) : SentinelOK m H' i s := by
  rcases h with h | ⟨hm, T, k, hd, hk, hs, hT, hcase⟩
  · left
    rw [htip, e.path (hok.tip.tip i)]
    exact h
  · right
    have hlen := (hok.ack.done_range T k hd).2.2
    refine ⟨hm, T, k, e.done T k hd, hk, ?_, Nat.le_trans hT (e.hor i), ?_⟩
    · rw [e.termAt (by omega)]
      exact hs
    · exact hcase.imp (fun hle => Nat.le_trans hle (e.cur i)) id

/-- What a server has committed is still agreed on. -/
theorem Agreed.mono (hok : H.OK) (e : Ext H H') {i : Fin n} (htip : H'.tip i = H.tip i)
    {first ci : Nat} (h : Agreed H i first ci) : Agreed H' i first ci := by
  refine ⟨by rw [htip]; exact h.le, fun hlt => ?_⟩
  obtain ⟨T, k, hd, hk, hT, heq⟩ := h.done hlt
  have hlen := (hok.ack.done_range T k hd).2.2
  refine ⟨T, k, e.done T k hd, hk, Nat.le_trans hT (e.cur i), ?_⟩
  rw [htip, e.path (hok.tip.tip i), heq, e.take (Nat.le_trans hk hlen)]

/-- A leader that nothing is done to is still right. -/
theorem LeaderOK.mono (e : Ext H H') {i : Fin n} (f : Frame H H' i) {rf : Raft n α}
    (h : LeaderOK H i rf) : LeaderOK H' i rf := by
  have hel : H.Elected (H.cur i) := elected_of_leader h.leader
  have hled := f.ledger h.leader
  have hbase := e.base _ hel
  constructor
  · rw [f.cur]
    exact e.leader _ _ h.leader
  · rw [f.cur, f.tip, hled]
    exact h.tip
  · rw [f.cur, hled]
    exact h.clean
  · rw [f.cur, f.hor]
    exact h.hor
  · rw [f.cur, hled, hbase, f.ack]
    exact h.ack
  · rw [f.cur]
    exact fun k hk => h.done k (f.done h.leader k hk)
  · intro p
    rw [f.cur, hbase]
    exact (h.next p).imp id fun hle => Nat.le_trans hle (e.cur p)
  · intro p
    rw [f.cur, hbase]
    exact (h.matched p).imp id (.imp id fun hle => Nat.le_trans hle (e.ack p _))

/-- What is acknowledged past a leader's start was so before. -/
theorem base_lt_of_ack (hok : H.OK) (e : Ext H H') {p : Fin n} {T m : Nat}
    (hb : H'.base T < m) (ha : m ≤ H.ack p T) : H.base T < m := by
  have hel : H.Elected T := by
    intro hn
    have := hok.ack.ack_le p T
    rw [hok.ledger.nil T hn] at this
    simp only [List.length_nil] at this
    omega
  rw [← e.base T hel]
  exact hb

/-- A log starts at most at what its server committed. -/
theorem RaftOK.first_le_commit {i : Fin n} {rf : Raft n α} (h : RaftOK m H i rf) :
    (sentinel rf.log).index ≤ rf.commitIndex :=
  Nat.le_trans h.first_le h.applied_le

/-- A server that nothing is done to is still right. -/
theorem RaftOK.mono (hok : H.OK) (e : Ext H H') {i : Fin n} (f : Frame H H' i) {rf : Raft n α}
    (h : RaftOK m H i rf) : RaftOK m H' i rf where
  cur := by rw [f.cur]; exact h.cur
  vote := by rw [f.cur, f.vote]; exact h.vote
  log := by rw [f.tip]; exact h.log.mono e (hok.tip.tip i)
  sentinel_ok := h.sentinel_ok.mono hok e f.tip
  spare := h.spare.mono e
  durable := h.durable
  first_le := h.first_le
  applied_le := h.applied_le
  known := by rw [f.hor]; exact h.known.mono e (Nat.le_refl _)
  agreed := h.agreed.imp id (·.mono hok e f.tip)
  candidate := fun hs => by
    obtain ⟨h1, h2⟩ := h.candidate hs
    rw [f.cur, f.tip, f.hor]
    exact ⟨e.req _ _ _ h1, fun hl => h2 (f.leader hl)⟩
  leader := fun hs => (h.leader hs).mono e f
  acked := fun T m hb ha => by
    rw [f.ack] at ha
    exact h.acked T m (base_lt_of_ack hok e hb ha) ha

theorem VoteCallOK.mono (e : Ext H H') {call : VoteCall n} (h : VoteCallOK H call) :
    VoteCallOK H' call where
  candidateId := h.candidateId
  req := by
    obtain ⟨k, hk⟩ := h.req
    exact ⟨k, e.req _ _ _ hk⟩
  granted := fun r hr hg => e.vote _ _ _ (h.granted r hr hg)

/-- The arguments of `AppendEntries` are still a slice of the leader's log. -/
theorem AppendArgsOK.mono (e : Ext H H') {l : Fin n} {args : AppendEntriesArgs n α} {V j : Nat}
    (h : AppendArgsOK m H l args V j) : AppendArgsOK m H' l args V j where
  term_le := h.term_le
  fresh := h.fresh
  leader := e.leader _ _ h.leader
  sender := e.leader _ _ h.sender
  cur := Nat.le_trans h.cur (e.cur _)
  base_le := by rw [e.base V (elected_of_leader h.sender)]; exact h.base_le
  le := Nat.le_trans h.le (e.length V)
  prev_le := h.prev_le
  prevTerm := by rw [e.termAt (Nat.le_trans h.prev_le h.le)]; exact h.prevTerm
  entries := by rw [e.take h.le]; exact h.entries
  commit_le := h.commit_le
  known := h.known.mono e (Nat.le_refl _)

theorem AppendReplyOK.mono (e : Ext H H') {callee : Fin n} {args : AppendEntriesArgs n α}
    {V j : Nat} {r : AppendEntriesReply} (hel : H.Elected V)
    (h : AppendReplyOK H callee args V j r) : AppendReplyOK H' callee args V j r := by
  refine ⟨Nat.le_trans h.1 (e.cur _), fun hs hV hb => ?_⟩
  rw [e.base V hel] at hb
  rcases h.2 hs hV hb with ha | ⟨k, hd, hk⟩
  · exact .inl (Nat.le_trans ha (e.ack _ _))
  · exact .inr ⟨k, e.done _ _ hd, hk⟩

theorem AppendCallOK.mono (e : Ext H H') {call : AppendCall n α} (h : AppendCallOK m H call) :
    AppendCallOK m H' call := by
  obtain ⟨V, j, hargs, hreply⟩ := h
  exact ⟨V, j, hargs.mono e, fun r hr =>
    (hreply r hr).mono e (elected_of_leader hargs.sender)⟩

theorem SnapArgsOK.mono (e : Ext H H') {l callee : Fin n} {args : InstallSnapshotArgs n} {V : Nat}
    (h : SnapArgsOK H l callee args V) : SnapArgsOK H' l callee args V where
  term_le := h.term_le
  leader := e.leader _ _ h.leader
  sender := e.leader _ _ h.sender
  cur := Nat.le_trans h.cur (e.cur _)
  le := Nat.le_trans h.le (e.length V)
  lastTerm := by rw [e.termAt h.le]; exact h.lastTerm
  known := h.known.mono e (Nat.le_refl _)
  fresh := by
    rw [e.base V (elected_of_leader h.sender)]
    exact h.fresh.imp id fun hle => Nat.le_trans hle (e.cur _)

theorem SnapCallOK.mono (e : Ext H H') {call : SnapCall n} (h : SnapCallOK H call) :
    SnapCallOK H' call := by
  obtain ⟨⟨V, hargs⟩, hreply⟩ := h
  exact ⟨⟨V, hargs.mono e⟩, fun r hr => Nat.le_trans (hreply r hr) (e.cur _)⟩

theorem GoroutinesOK.mono (e : Ext H H') {i : Fin n} {s : Server n α}
    (h : GoroutinesOK m H i s) : GoroutinesOK m H' i s where
  replicators := fun r hr => e.leader _ _ (h.replicators r hr)
  applying := fun x hx => ⟨(h.applying x hx).1.mono e, (h.applying x hx).2⟩
  installing := fun x hx => ⟨(h.installing x hx).1.mono e, (h.installing x hx).2⟩
  delivered := h.delivered

/-- The log that a leader had is still a beginning of the log of its term. -/
theorem LeaderLog.mono (e : Ext H H') {V j : Nat} {log : List (LogEntry α)}
    (h : LeaderLog H V j log) : LeaderLog H' V j log where
  eq := by rw [e.take h.le]; exact h.eq
  first_le := h.first_le
  le := Nat.le_trans h.le (e.length V)
  clean := by rw [e.termAt (Nat.le_trans h.first_le h.le)]; exact h.clean

/-- What was true of an event stays true. -/
theorem EventOK.mono (e : Ext H H') {ev : Event n α} (h : EventOK m H ev) : EventOK m H' ev := by
  cases ev with
  | becomeLeader i V log =>
    refine ⟨e.leader _ _ h.1, ?_⟩
    rw [e.base V (elected_of_leader h.1)]
    exact h.2.mono e
  | start i command index term => exact ⟨e.leader _ _ h.1, h.2.mono e⟩
  | commit i V k log =>
    obtain ⟨hl, hd, j, hk, hlog⟩ := h
    exact ⟨e.leader _ _ hl, e.done _ _ hd, j, hk, hlog.mono e⟩
  | apply i msg =>
    cases msg with
    | command command index term => exact SentOK.mono e h
    | snapshot => trivial
  | snapshot | installSnapshot => trivial

/-- The chronicle side of a step of server `p`. -/
structure Moves (H H' : Chron n α) (p : Fin n) : Prop where
  ok : H'.OK
  ext : Ext H H'
  frame : ∀ j, j ≠ p → Frame H H' j
  indexed : Indexed H'

theorem Moves.refl (hok : H.OK) (hidx : Indexed H) (p : Fin n) : Moves H H p :=
  ⟨hok, Ext.refl H, fun j _ => Frame.refl H j, hidx⟩

theorem Moves.trans {p : Fin n} (m : Moves H H' p) (m' : Moves H' H'' p) : Moves H H'' p :=
  ⟨m'.ok, m.ext.trans m'.ext, fun j hj => (m.frame j hj).trans m.ext (m'.frame j hj), m'.indexed⟩

end DistLabs
