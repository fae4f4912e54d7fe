import DistLabs.Raft.Outcome
import DistLabs.Raft.Simulation

/-!
# What a leader knows about its followers

In the runs without stale sends and without conflicting snapshots, `matchIndex` is right: a server
that has not left the leader's term holds the leader's log up to there (`Holds`). `Tracked` is the
invariant, over the leaders, the replies in flight and the snapshots in flight; `tracked_step` is
its step lemma. It is proved beside the simulation, which it uses for what a single server does.
-/

namespace DistLabs

open Lib Chronicle

variable {n : Nat} {α : Type} {H H' : Chron n α} {c c' : Cluster n α} {i : Fin n}
  {tip : Pos} {rf rf' : Raft n α} {t j : Nat}

/-- The mode of the runs without stale sends and conflicting snapshots. -/
def Mode.strict : Mode := ⟨False, False⟩

/-- In these runs every sentinel lies on its abstract log. -/
theorem RaftOK.clean (h : RaftOK .strict H i rf) : Clean H (H.tip i) rf.log :=
  h.sentinel_ok.resolve_right fun h => h.1

/-- The server holds the log of term `t` up to index `j`, in its log or below its snapshot, unless
it went on to a later term. -/
def Holds (H : Chron n α) (t j : Nat) (rf : Raft n α) : Prop :=
  t < rf.currentTerm ∨ j ≤ (sentinel rf.log).index ∨
    rf.currentTerm = t ∧ j ≤ (H.ledger t).length ∧
      ∃ e ∈ rf.log, e.index = j ∧ e.term = termAt (H.ledger t) j

/-- What the server's snapshot covers was committed in a term that the server has reached. -/
def Anchored (H : Chron n α) (rf : Raft n α) : Prop :=
  (sentinel rf.log).index = 0 ∨ ∃ T k, H.done T k ∧ (sentinel rf.log).index ≤ k ∧
    T ≤ rf.currentTerm ∧ (sentinel rf.log).term = termAt (H.ledger T) (sentinel rf.log).index

/-- What leader `rf` of term `t` knows about a server `p`. -/
structure Knows (H : Chron n α) (t : Nat) (rf : Raft n α) (p : Fin n) (rfp : Raft n α) : Prop where
  next_le : rf.nextIndex p ≤ (H.ledger t).length + 1
  match_le : rf.matchIndex p ≤ (H.ledger t).length
  holds : Holds H t (rf.matchIndex p) rfp

/-- A snapshot call is on its way, or its handler is about to send on `applyChan`. -/
def SnapInFlight (c : Cluster n α) (call : SnapCall n) : Prop :=
  call ∈ c.snaps ∨ ∃ i, ∃ x ∈ (c.servers i).installing, x.call = call

/-- What a reply of `AppendEntries` tells about the server that sent it. -/
def TrackedAppend (H : Chron n α) (c : Cluster n α) (call : AppendCall n α) : Prop :=
  ∀ r, call.reply = some r → r.conflictIndex ≤ call.args.prevLogIndex ∧
    (r.success = true → Holds H call.args.term
      (call.args.prevLogIndex + call.args.entries.length) (c.servers call.callee).raft)

/-- What a snapshot call and its reply tell. -/
def TrackedSnap (H : Chron n α) (c : Cluster n α) (call : SnapCall n) : Prop :=
  SnapArgsOK H call.caller call.callee call.args call.args.term ∧
    ∀ r, call.reply = some r → r.term = call.args.term →
      Holds H call.args.term call.args.lastIncludedIndex (c.servers call.callee).raft

/-- What leaders and calls in flight know about the servers is right. -/
structure Tracked (H : Chron n α) (c : Cluster n α) : Prop where
  anchored : ∀ i, Anchored H (c.servers i).raft
  leader : ∀ l, (c.servers l).raft.state = .leader →
    ∀ p, Knows H (H.cur l) (c.servers l).raft p (c.servers p).raft
  appends : ∀ call ∈ c.appends, TrackedAppend H c call
  snaps : ∀ call, SnapInFlight c call → TrackedSnap H c call

/-! ## What a server keeps -/

/-- From `rf` to `rf'` a server keeps what it holds and what its snapshot rests on. -/
structure Stays (H H' : Chron n α) (rf rf' : Raft n α) : Prop where
  holds : ∀ {t j}, Holds H t j rf → Holds H' t j rf'
  anchored : Anchored H rf → Anchored H' rf'

/-- What a snapshot rests on stays when the history goes on. -/
theorem Anchored.mono (hok : H.OK) (e : Ext H H') (h : Anchored H rf)
    (hs : sentinel rf'.log = sentinel rf.log) (hcur : rf.currentTerm ≤ rf'.currentTerm) :
    Anchored H' rf' := by
  rw [Anchored, hs]
  refine h.imp id fun ⟨T, k, hd, hk, hT, ht⟩ =>
    ⟨T, k, e.done T k hd, hk, Nat.le_trans hT hcur, ?_⟩
  rw [e.termAt (Nat.le_trans hk (hok.ack.done_range T k hd).2.2), ht]

/-- Entries are only added, or the server goes on to a later term. -/
theorem Holds.mono (e : Ext H H') (h : Holds H t j rf) (hs : sentinel rf'.log = sentinel rf.log)
    (hlog : rf.log ⊆ rf'.log) (hcur : rf.currentTerm ≤ rf'.currentTerm) : Holds H' t j rf' := by
  rcases h with hlt | hfirst | ⟨rfl, hlen, x, hx, hi, ht⟩
  · exact .inl (Nat.lt_of_lt_of_le hlt hcur)
  · exact .inr (.inl (by rw [hs]; exact hfirst))
  · rcases Nat.lt_or_eq_of_le hcur with hlt | heq
    · exact .inl hlt
    · refine .inr (.inr ⟨heq.symm, Nat.le_trans hlen (e.length _), x, hlog hx, hi, ?_⟩)
      rw [e.termAt hlen, ht]

/-- A server that keeps its log keeps what it holds. -/
theorem Stays.of_log (hok : H.OK) (e : Ext H H') (hlog : rf'.log = rf.log)
    (hcur : rf.currentTerm ≤ rf'.currentTerm) : Stays H H' rf rf' where
  holds := fun h => h.mono e (by rw [hlog]) (by rw [hlog]; exact List.Subset.refl _) hcur
  anchored := fun h => h.mono hok e (by rw [hlog]) hcur

theorem Stays.refl (hok : H.OK) (e : Ext H H') : Stays H H' rf rf :=
  .of_log hok e rfl (Nat.le_refl _)

theorem Stays.trans {H'' : Chron n α} {rf'' : Raft n α} (h : Stays H H' rf rf')
    (h' : Stays H' H'' rf' rf'') : Stays H H'' rf rf'' :=
  ⟨fun hh => h'.holds (h.holds hh), fun ha => h'.anchored (h.anchored ha)⟩

/-- The log is cut below, and otherwise the same abstract log. -/
theorem Holds.cut (hidx : Indexed H) (htip : ValidPos H.ledger tip) (h : LogOK H tip rf.log)
    (hc : Clean H tip rf.log) (hlog : LogOK H tip rf'.log)
    (hfirst : (sentinel rf.log).index ≤ (sentinel rf'.log).index)
    (hcur : rf.currentTerm ≤ rf'.currentTerm) (hh : Holds H t j rf) : Holds H t j rf' := by
  rcases hh with hlt | hle | ⟨rfl, hlen, x, hx, rfl, ht⟩
  · exact .inl (Nat.lt_of_lt_of_le hlt hcur)
  · exact .inr (.inl (Nat.le_trans hle hfirst))
  rcases Nat.lt_or_eq_of_le hcur with hlt | heq
  · exact .inl hlt
  rcases Nat.lt_or_ge (sentinel rf'.log).index x.index with hlt | hge
  · obtain ⟨hle, hxt⟩ := h.term_eq htip hidx hc hx
    obtain ⟨y, hy, hp, hyt⟩ := hlog.exists_entry htip hlt hle
    refine .inr (.inr ⟨heq.symm, hlen, y, List.mem_of_getElem? hy, ?_, ?_⟩)
    · rw [hidx.path hp]
      omega
    · rw [hyt, ← hxt, ht]
  · exact .inr (.inl hge)

/-- What a server took to be committed is on the log of every later leader. -/
theorem RaftOK.agree (hok : H.OK) (h : RaftOK .strict H i rf) {V : Nat} (hV : H.Elected V)
    (hcur : rf.currentTerm ≤ V) (hfirst : (sentinel rf.log).index < rf.commitIndex) :
    (H.path (H.tip i)).take rf.commitIndex = (H.ledger V).take rf.commitIndex := by
  obtain ⟨T, k, hd, hk, hT, heq⟩ := (h.agreed.resolve_left id).done hfirst
  rw [h.cur] at hcur
  rw [heq]
  exact (take_congr (hok.done_le hd (Nat.le_trans hT hcur) hV).2 hk).symm

/-! ## The handlers of a follower -/

/-- What a successful `AppendEntries` keeps and adds. -/
theorem Stored.holds (hok : H.OK) (hidx : Indexed H) (htip : ValidPos H.ledger tip)
    (h : LogOK H tip rf.log) (hc : Clean H tip rf.log) {V : Nat} (hV : rf.currentTerm = V)
    (hj : j ≤ (H.ledger V).length) (hst : Stored H tip rf rf' V j) :
    (∀ {t k}, Holds H t k rf → Holds H t k rf') ∧ Holds H V j rf' := by
  have hct := hst.currentTerm
  rw [hV] at hct
  rcases hst.log with ⟨hlog, o⟩ | ⟨hlog, k, hlt, o⟩
  · refine ⟨fun hh => hh.mono (Ext.refl H) hst.sentinel_eq (by rw [hlog]; exact List.Subset.refl _)
      (Nat.le_of_eq hst.currentTerm.symm), ?_⟩
    rcases Nat.lt_or_eq_of_le o.first_le with hfirst | heq
    · obtain ⟨e, he, hp, het⟩ := h.exists_entry htip hfirst o.le_tip
      refine .inr (.inr ⟨hct, hj, e, ?_, ?_, ?_⟩)
      · rw [hlog]
        exact List.mem_of_getElem? he
      · rw [hidx.path hp]
        omega
      · rw [het, termAt_congr (o.agree hfirst) (Nat.le_refl _)]
    · exact .inr (.inl (by rw [hst.sentinel_eq, heq]))
  · have hpath : H.path (posAt (H.ledger V) j) = (H.ledger V).take j :=
      hok.ledger.pathTo_posAt hj
    -- the new log has every index of the request
    have hnew : ∀ k, (sentinel rf.log).index < k → k ≤ j → ∃ e ∈ rf'.log, e.index = k ∧
        e.term = termAt (H.ledger V) k := by
      intro k hk hkj
      obtain ⟨e, he, hp, het⟩ := hlog.exists_entry (hok.ledger.validPos_posAt hj)
        (by rw [hst.sentinel_eq]; exact hk) hkj
      refine ⟨e, List.mem_of_getElem? he, ?_, ?_⟩
      · rw [hidx.path hp]
        omega
      · rw [het, hpath, termAt_take hkj]
    have hfirst : (sentinel rf.log).index < j := Nat.lt_of_le_of_lt o.first_le hlt
    refine ⟨fun {t k'} hh => ?_, .inr (.inr ⟨hct, hj, hnew j hfirst (Nat.le_refl _)⟩)⟩
    rcases hh with hcur | hle | ⟨rfl, hlen, x, hx, rfl, hxt⟩
    · exact .inl (by rw [hst.currentTerm]; exact hcur)
    · exact .inr (.inl (by rw [hst.sentinel_eq]; exact hle))
    -- an entry of the leader's log is not overwritten
    subst hV
    obtain ⟨hxle, hxp⟩ := h.term_eq htip hidx hc hx
    have hkeep : x.index ≤ k := (o.le_of_take_eq hxle
      (take_eq_of_path hok htip hxle hlen (hxp.symm.trans hxt))).resolve_left (Nat.ne_of_lt hlt)
    rcases Nat.lt_or_ge (sentinel rf.log).index x.index with hlt' | hge
    · exact .inr (.inr ⟨hst.currentTerm, hlen, hnew x.index hlt' (by omega)⟩)
    · exact .inr (.inl (by rw [hst.sentinel_eq]; exact hge))

/-- The server is no leader, or it leads on with what it knew before. -/
def LeadsOn (rf rf' : Raft n α) : Prop :=
  rf'.state = .leader → rf.state = .leader ∧ rf'.currentTerm = rf.currentTerm ∧
    rf'.nextIndex = rf.nextIndex ∧ rf'.matchIndex = rf.matchIndex

theorem LeadsOn.refl (rf : Raft n α) : LeadsOn rf rf := fun h => ⟨h, rfl, rfl, rfl⟩

theorem LeadsOn.of_follower (h : rf'.state = .follower) : LeadsOn rf rf' := by
  intro hlead
  rw [h] at hlead
  cases hlead

/-- `AppendEntries`. -/
theorem appendEntries_stays (hok : H.OK) (hidx : Indexed H) (h : RaftOK .strict H i rf)
    {l : Fin n} {args : AppendEntriesArgs n α} {V : Nat} (ha : AppendArgsOK .strict H l args V j)
    {g : Nat} {reply : AppendEntriesReply} (hr : rf.appendEntries args g = some (rf', reply)) :
    Stays H H rf rf' ∧ LeadsOn rf rf' ∧ reply.conflictIndex ≤ args.prevLogIndex ∧
      (reply.success = true →
        Holds H args.term (args.prevLogIndex + args.entries.length) rf') := by
  obtain rfl : V = args.term := ha.fresh.resolve_left id
  obtain ⟨_, _, hr', hcase⟩ := (h.log.contiguous hidx).exists_appendEntries args g
  rw [hr] at hr'
  cases hr'
  rcases hcase with ⟨_, rfl, hsucc, hconf⟩ | ⟨_, _, hct, hrec⟩
  · rw [hsucc, hconf]
    exact ⟨.refl hok (Ext.refl H), .refl rf', Nat.zero_le _, fun hsucc => by cases hsucc⟩
  -- from here on the server is a follower in the term of the request
  have hlog : (rf.stepDown args.term).toFollower.log = rf.log := stepDown_log ..
  have hstay : Stays H H rf (rf.stepDown args.term).toFollower :=
    .of_log hok (Ext.refl H) hlog (le_stepDown_currentTerm ..)
  have htip := hok.tip.tip i
  have h₁ : LogOK H (H.tip i) (rf.stepDown args.term).toFollower.log := by
    rw [hlog]
    exact h.log
  have hc₁ : Clean H (H.tip i) (rf.stepDown args.term).toFollower.log := by
    rw [hlog]
    exact h.clean
  cases hrec.answered hok hidx h₁ htip hc₁ ha.slice with
  | below => exact ⟨hstay, .of_follower rfl, Nat.zero_le _, fun hsucc => by cases hsucc⟩
  | short hprev => exact ⟨hstay, .of_follower rfl, hprev, fun hsucc => by cases hsucc⟩
  | conflict _ hle => exact ⟨hstay, .of_follower rfl, hle, fun hsucc => by cases hsucc⟩
  | stored hst =>
    obtain ⟨hkeep, hnew⟩ := hst.holds hok hidx htip h₁ hc₁ hct ha.le
    refine ⟨⟨fun hh => hkeep (hstay.holds hh), fun han =>
      (hstay.anchored han).mono hok (Ext.refl H)
      hst.sentinel_eq (Nat.le_of_eq hst.currentTerm.symm)⟩, ?_, Nat.zero_le _, fun _ => ?_⟩
    · exact .of_follower hst.state
    · rw [ha.slice.length]
      exact hnew

/-- `InstallSnapshot`. -/
theorem installSnapshot_stays (hok : H.OK) (hidx : Indexed H) (h : RaftOK .strict H i rf)
    {l : Fin n} {args : InstallSnapshotArgs n} (ha : SnapArgsOK H l i args args.term) {g : Nat}
    {reply : InstallSnapshotReply} {msg : Option (ApplyMsg α)}
    (hr : rf.installSnapshot args g = some (rf', reply, msg)) :
    Stays H H rf rf' ∧ LeadsOn rf rf' ∧
      (reply.term = args.term → Holds H args.term args.lastIncludedIndex rf') := by
  have hV : H.Elected args.term := elected_of_leader ha.leader
  have hfirst : (sentinel rf.log).index ≤ rf.commitIndex := h.first_le_commit
  obtain ⟨_, _, _, hr', hcase⟩ := (h.log.contiguous hidx).exists_installSnapshot hfirst args g
  rw [hr] at hr'
  cases hr'
  rcases hcase with ⟨rfl, hterm⟩ | ⟨hct, hrep⟩
  · refine ⟨.refl hok (Ext.refl H), .refl rf', fun heq => ?_⟩
    rcases hterm with ⟨_, h0⟩ | hne
    · rw [← heq, h0] at hV
      exact absurd hok.ledger.zero hV
    · exact absurd heq hne
  have hlog : (rf.stepDown args.term).toFollower.log = rf.log := stepDown_log ..
  have hle : rf.currentTerm ≤ args.term := by
    rw [← hct]
    exact le_stepDown_currentTerm ..
  have hci : (rf.stepDown args.term).toFollower.commitIndex = rf.commitIndex :=
    stepDown_commitIndex ..
  have hstay : Stays H H rf (rf.stepDown args.term).toFollower :=
    .of_log hok (Ext.refl H) hlog (le_stepDown_currentTerm ..)
  have htip := hok.tip.tip i
  have h₁ : LogOK H (H.tip i) (rf.stepDown args.term).toFollower.log := by
    rw [hlog]
    exact h.log
  have hc₁ : Clean H (H.tip i) (rf.stepDown args.term).toFollower.log := by
    rw [hlog]
    exact h.clean
  rcases hrep.taken hok h₁ htip (by rw [hlog, hci]; exact hfirst) ha.le ha.lastTerm with
    ⟨hold, rfl⟩ | htaken
  · -- the server had committed that much
    refine ⟨hstay, .of_follower rfl, fun _ => ?_⟩
    rw [hci] at hold
    rcases Nat.lt_or_ge (sentinel rf.log).index args.lastIncludedIndex with hlt | hge
    · obtain ⟨e, he, hei, het⟩ := h₁.exists_mem_of_clean htip hidx hc₁
        (by rw [hlog]; exact Nat.le_of_lt hlt)
        (Nat.le_trans hold (h.agreed.resolve_left id).le)
      have hagree := h.agree hok hV hle (Nat.lt_of_lt_of_le hlt hold)
      exact .inr (.inr ⟨hct, ha.le, e, he, hei, by rw [het, termAt_congr hagree hold]⟩)
    · exact .inr (.inl (by rw [hlog]; exact hge))
  · have hidx' : (sentinel rf'.log).index = args.lastIncludedIndex := by rw [htaken.sentinel_eq]
    have hcur' : rf'.currentTerm = args.term := htaken.currentTerm.trans hct
    have hlt : (sentinel rf.log).index < args.lastIncludedIndex := by
      have := htaken.commit_lt
      omega
    refine ⟨⟨fun {t j} hh => ?_, fun _ => ?_⟩, fun hs => ?_,
      fun _ => .inr (.inl (by rw [hidx']))⟩
    · have hh := hstay.holds hh
      rcases htaken.log with ⟨hshort, _⟩ | ⟨_, hlog'⟩
      · -- whatever the server held lies below the snapshot
        rcases hh with hlt' | hfst | ⟨heq, _, x, hx, rfl, _⟩
        · exact .inl (by rw [htaken.currentTerm]; exact hlt')
        · exact .inr (.inl (by rw [hlog] at hfst; omega))
        · have := (h₁.term_eq htip hidx hc₁ hx).1
          exact .inr (.inl (by omega))
      · exact hh.cut hidx htip h₁ hc₁ hlog' (by rw [hlog]; omega)
          (Nat.le_of_eq htaken.currentTerm.symm)
    · rcases ha.known with h0 | ⟨T, k, hd, hk, hT⟩
      · omega
      · refine .inr ⟨T, k, hd, by rw [hidx']; exact hk, by rw [hcur']; exact hT, ?_⟩
        rw [htaken.sentinel_eq, ha.lastTerm]
        exact termAt_congr (hok.done_le hd hT hV).2 hk
    · rw [htaken.state] at hs
      cases hs

/-! ## Elections and replies -/

/-- Standing for election leaves the log alone. -/
theorem startElection_log {args : RequestVoteArgs n}
    (hr : rf.startElection i = some (rf', args)) : rf'.log = rf.log ∧ rf'.state = .candidate := by
  simp only [Raft.startElection, Option.bind_eq_bind, Option.bind_eq_some_iff] at hr
  obtain ⟨_, _, _, _, hr⟩ := hr
  cases hr
  exact ⟨rfl, rfl⟩

/-- `RequestVote` leaves the log alone. -/
theorem requestVote_log {args : RequestVoteArgs n} {reply : RequestVoteReply}
    (hr : rf.requestVote args = some (rf', reply)) : rf'.log = rf.log ∧ LeadsOn rf rf' := by
  rw [Raft.requestVote] at hr
  split at hr
  · cases hr
    exact ⟨rfl, .refl rf⟩
  have hdown : LeadsOn rf (rf.stepDown args.term) := by
    rw [Raft.stepDown]
    split
    · exact .of_follower rfl
    · exact .refl rf
  simp only [Raft.decideVote, Option.bind_eq_bind, Option.bind_eq_some_iff] at hr
  obtain ⟨_, _, _, _, hr⟩ := hr
  split at hr
  · cases hr
    rw [Raft.castVote]
    split <;> exact ⟨stepDown_log .., hdown⟩
  · cases hr
    exact ⟨stepDown_log .., hdown⟩

/-- The backward scan stops below where it starts. -/
theorem conflictEnd_lt {first k : Nat} {ct e : Int} (hr : rf.conflictEnd first ct k = some e) :
    e < k := by
  induction k with
  | zero =>
    cases hr
    decide
  | succ k ih =>
    rw [Raft.conflictEnd] at hr
    split at hr
    · cases hr
      omega
    rw [Option.bind_eq_bind, Option.bind_eq_some_iff] at hr
    obtain ⟨_, _, hr⟩ := hr
    split at hr
    · cases hr
      omega
    split at hr
    · cases hr
      omega
    · have := ih hr
      omega

/-- After a rejection the leader goes on at most where it was, or at what it knows to match. -/
theorem backUp_next {server : Fin n} {args : AppendEntriesArgs n α} {reply : AppendEntriesReply}
    (hr : rf.backUp server args reply = some rf') :
    ∃ next, 0 < next ∧ (reply.conflictIndex ≤ args.prevLogIndex →
        next ≤ max args.prevLogIndex (rf.matchIndex server + 1)) ∧
      rf' = { rf with nextIndex := Function.update rf.nextIndex server next } := by
  simp only [Raft.backUp, Option.bind_eq_bind, Option.bind_eq_some_iff] at hr
  obtain ⟨first, _, last, hlast, hr⟩ := hr
  cases hr
  have hlt : last < args.prevLogIndex ∨ last = -1 := by
    split at hlast
    · exact .inl (conflictEnd_lt hlast)
    · cases hlast
      exact .inr rfl
  refine ⟨_, ?_, fun hconf => ?_, rfl⟩
  · split <;> omega
  · split <;> omega

/-- A leader sets what it knows of `server`. -/
structure Heard (rf rf' : Raft n α) (server : Fin n) (next k : Nat) : Prop where
  leader : rf.state = .leader
  currentTerm : rf'.currentTerm = rf.currentTerm
  nextIndex : rf'.nextIndex = Function.update rf.nextIndex server next
  matchIndex : rf'.matchIndex = Function.update rf.matchIndex server k

/-- `handleAppendEntriesRPCResponse`. -/
theorem handleAppendEntriesRPCResponse_heard {server : Fin n} {args : AppendEntriesArgs n α}
    {reply : AppendEntriesReply} {again : Bool} {assigned : List Nat}
    (hr : rf.handleAppendEntriesRPCResponse i server args reply = some (rf', again, assigned)) :
    rf'.log = rf.log ∧ (LeadsOn rf rf' ∨ rf.currentTerm = args.term ∧ ∃ next k,
      Heard rf rf' server next k ∧
      (reply.success = true ∧ next = k + 1 ∧
          k = max (rf.matchIndex server) (args.prevLogIndex + args.entries.length) ∨
        0 < next ∧ (reply.conflictIndex ≤ args.prevLogIndex →
          next ≤ max args.prevLogIndex (rf.matchIndex server + 1)) ∧
            k = rf.matchIndex server)) := by
  rw [Raft.handleAppendEntriesRPCResponse] at hr
  split at hr
  swap
  · cases hr
    exact ⟨rfl, .inl (.refl rf)⟩
  next hcond =>
  split at hr
  · split at hr
    · next hsucc =>
      simp only [Option.bind_eq_bind, Option.bind_eq_some_iff, Prod.exists] at hr
      obtain ⟨rf₁, assigned₁, hadv, hr⟩ := hr
      cases hr
      simp only [Raft.advanceCommit, Option.bind_eq_bind, Option.bind_eq_some_iff] at hadv
      obtain ⟨_, _, _, _, hadv⟩ := hadv
      cases hadv
      exact ⟨rfl, .inr ⟨hcond.2, _, _, ⟨hcond.1, rfl, rfl, rfl⟩, .inl ⟨hsucc, rfl, rfl⟩⟩⟩
    · rw [Option.bind_eq_bind, Option.bind_eq_some_iff] at hr
      obtain ⟨rf₁, hback, hr⟩ := hr
      cases hr
      obtain ⟨next, hpos, hnext, rfl⟩ := backUp_next hback
      exact ⟨rfl, .inr ⟨hcond.2, next, _,
        ⟨hcond.1, rfl, rfl, (Function.update_eq_self ..).symm⟩, .inr ⟨hpos, hnext, rfl⟩⟩⟩
  · split at hr
    · cases hr
      exact ⟨rfl, .inl (.of_follower rfl)⟩
    · cases hr
      exact ⟨rfl, .inl (.refl rf)⟩

/-- `handleInstallSnapshotRPCResponse`. -/
theorem handleInstallSnapshotRPCResponse_heard (rf : Raft n α) (server : Fin n)
    (args : InstallSnapshotArgs n) (reply : InstallSnapshotReply) :
    (rf.handleInstallSnapshotRPCResponse server args reply).log = rf.log ∧
      (LeadsOn rf (rf.handleInstallSnapshotRPCResponse server args reply) ∨
        rf.currentTerm = args.term ∧ reply.term = args.term ∧
        Heard rf (rf.handleInstallSnapshotRPCResponse server args reply) server
          (max (rf.matchIndex server) args.lastIncludedIndex + 1)
          (max (rf.matchIndex server) args.lastIncludedIndex)) := by
  rw [Raft.handleInstallSnapshotRPCResponse]
  split
  · next hcond =>
    split
    · next hterm =>
      exact ⟨rfl, .inr ⟨hcond.2, hterm.trans hcond.2, hcond.1, rfl, rfl, rfl⟩⟩
    split
    · exact ⟨rfl, .inl (.of_follower rfl)⟩
    · exact ⟨rfl, .inl (.refl rf)⟩
  · exact ⟨rfl, .inl (.refl rf)⟩

/-! ## Steps -/

section
variable {p : Fin n} {s' : Server n α}

/-- The cluster after a step: every server keeps what it holds, and every leader knows what it knew
or what it heard. -/
theorem Tracked.next (ht : Tracked H c) (e : Ext H H')
    (hall : ∀ i, Stays H H' (c.servers i).raft (c'.servers i).raft)
    (hlead : ∀ l, (c'.servers l).raft.state = .leader → ∀ q,
      (c'.servers l).raft.nextIndex q ≤ (H'.ledger (H'.cur l)).length + 1 ∧
      (c'.servers l).raft.matchIndex q ≤ (H'.ledger (H'.cur l)).length ∧
      Holds H (H'.cur l) ((c'.servers l).raft.matchIndex q) (c.servers q).raft)
    (ha : ∀ call ∈ c'.appends, call ∈ c.appends ∨ TrackedAppend H' c' call)
    (hn : ∀ call, SnapInFlight c' call → SnapInFlight c call ∨ TrackedSnap H' c' call) :
    Tracked H' c' := by
  refine ⟨fun i => (hall i).anchored (ht.anchored i), fun l hl q => ?_, fun call hc => ?_,
    fun call hc => ?_⟩
  · obtain ⟨h1, h2, h3⟩ := hlead l hl q
    exact ⟨h1, h2, (hall q).holds h3⟩
  · rcases ha call hc with hold | hnew
    · intro r hr
      obtain ⟨h1, h2⟩ := ht.appends call hold r hr
      exact ⟨h1, fun hsucc => (hall _).holds (h2 hsucc)⟩
    · exact hnew
  · rcases hn call hc with hold | hnew
    · obtain ⟨h1, h2⟩ := ht.snaps call hold
      exact ⟨h1.mono e, fun r hr hterm => (hall _).holds (h2 r hr hterm)⟩
    · exact hnew

/-- What a leader that a step left alone knows. -/
theorem Tracked.leader_kept (hs : Sim .strict H c) (hs' : Sim .strict H' c') (e : Ext H H')
    (ht : Tracked H c) {l : Fin n} (hl : LeadsOn (c.servers l).raft (c'.servers l).raft)
    (hlead : (c'.servers l).raft.state = .leader) (q : Fin n) :
    (c'.servers l).raft.nextIndex q ≤ (H'.ledger (H'.cur l)).length + 1 ∧
      (c'.servers l).raft.matchIndex q ≤ (H'.ledger (H'.cur l)).length ∧
      Holds H (H'.cur l) ((c'.servers l).raft.matchIndex q) (c.servers q).raft := by
  obtain ⟨hst, hcur, hnext, hmatch⟩ := hl hlead
  have hcur' : H'.cur l = H.cur l := by rw [← (hs'.raft l).cur, ← (hs.raft l).cur, hcur]
  have hk := ht.leader l hst q
  have hlen := e.length (H.cur l)
  rw [hcur', hnext, hmatch]
  exact ⟨Nat.le_trans hk.next_le (Nat.succ_le_succ hlen), Nat.le_trans hk.match_le hlen, hk.holds⟩

/-- The cluster after a step of server `p`. -/
theorem Tracked.update (hs : Sim .strict H c) (hs' : Sim .strict H' c') (e : Ext H H')
    (ht : Tracked H c) (hserv : c'.servers = Function.update c.servers p s')
    (hstay : Stays H H' (c.servers p).raft s'.raft)
    (hlead : s'.raft.state = .leader → ∀ q,
      s'.raft.nextIndex q ≤ (H'.ledger (H'.cur p)).length + 1 ∧
      s'.raft.matchIndex q ≤ (H'.ledger (H'.cur p)).length ∧
      Holds H (H'.cur p) (s'.raft.matchIndex q) (c.servers q).raft)
    (ha : ∀ call ∈ c'.appends, call ∈ c.appends ∨ TrackedAppend H' c' call)
    (hn : ∀ call, SnapInFlight c' call → SnapInFlight c call ∨ TrackedSnap H' c' call) :
    Tracked H' c' := by
  have hself : c'.servers p = s' := by rw [hserv, Function.update_self]
  have hother : ∀ {i}, i ≠ p → c'.servers i = c.servers i := fun hi => by
    rw [hserv, Function.update_of_ne hi]
  refine ht.next e (fun i => ?_) (fun l hl => ?_) ha hn
  · by_cases hi : i = p
    · subst hi
      rw [hself]
      exact hstay
    · rw [hother hi]
      exact .refl hs.ok e
  · by_cases hlp : l = p
    · subst hlp
      rw [hself] at hl ⊢
      exact hlead hl
    · exact ht.leader_kept hs hs' e (by rw [hother hlp]; exact .refl _) hl

/-- The cluster after a step in which server `p` leads on, or does not lead. -/
theorem Tracked.update_leadsOn (hs : Sim .strict H c) (hs' : Sim .strict H' c') (e : Ext H H')
    (ht : Tracked H c) (hserv : c'.servers = Function.update c.servers p s')
    (hstay : Stays H H' (c.servers p).raft s'.raft) (hl : LeadsOn (c.servers p).raft s'.raft)
    (ha : ∀ call ∈ c'.appends, call ∈ c.appends ∨ TrackedAppend H' c' call)
    (hn : ∀ call, SnapInFlight c' call → SnapInFlight c call ∨ TrackedSnap H' c' call) :
    Tracked H' c' := by
  have hself : c'.servers p = s' := by rw [hserv, Function.update_self]
  refine ht.update hs hs' e hserv hstay (fun hlead q => ?_) ha hn
  rw [← hself] at hlead hl ⊢
  exact ht.leader_kept hs hs' e hl hlead q

/-- The cluster after leader `p` heard of server `q`. -/
theorem Tracked.update_heard (hs : Sim .strict H c) (hs' : Sim .strict H' c') (e : Ext H H')
    (ht : Tracked H c) (hserv : c'.servers = Function.update c.servers p s')
    (hstay : Stays H H' (c.servers p).raft s'.raft) {q : Fin n} {next k : Nat}
    (hheard : Heard (c.servers p).raft s'.raft q next k)
    (hnext : next ≤ (H.ledger (H.cur p)).length + 1) (hk : k ≤ (H.ledger (H.cur p)).length)
    (hholds : Holds H (H.cur p) k (c.servers q).raft)
    (ha : ∀ call ∈ c'.appends, call ∈ c.appends ∨ TrackedAppend H' c' call)
    (hn : ∀ call, SnapInFlight c' call → SnapInFlight c call ∨ TrackedSnap H' c' call) :
    Tracked H' c' := by
  refine ht.update hs hs' e hserv hstay (fun _ r => ?_) ha hn
  have hcur' : H'.cur p = H.cur p := by
    rw [← (hs'.raft p).cur, ← (hs.raft p).cur, hserv, Function.update_self, hheard.currentTerm]
  have hlen := e.length (H.cur p)
  rw [hcur', hheard.nextIndex, hheard.matchIndex]
  by_cases hr : r = q
  · subst hr
    rw [Function.update_self, Function.update_self]
    exact ⟨by omega, by omega, hholds⟩
  · rw [Function.update_of_ne hr, Function.update_of_ne hr]
    have hkr := ht.leader p hheard.leader r
    exact ⟨Nat.le_trans hkr.next_le (Nat.succ_le_succ hlen), Nat.le_trans hkr.match_le hlen,
      hkr.holds⟩

/-- The handlers that wait to send after a step of server `p`. -/
theorem exists_installing_of_update (hserv : c'.servers = Function.update c.servers p s')
    {q : Fin n} {x : Installer n α} (hx : x ∈ (c'.servers q).installing) :
    x ∈ s'.installing ∨ SnapInFlight c x.call := by
  rw [hserv] at hx
  by_cases hq : q = p
  · subst hq
    rw [Function.update_self] at hx
    exact .inl hx
  · rw [Function.update_of_ne hq] at hx
    exact .inr (.inr ⟨q, x, hx, rfl⟩)

/-- Snapshot calls in flight after a step of server `p` that starts no handler. -/
theorem SnapInFlight.of_update {call : SnapCall n} (h : SnapInFlight c' call)
    (hserv : c'.servers = Function.update c.servers p s')
    (hinst : s'.installing ⊆ (c.servers p).installing) :
    call ∈ c'.snaps ∨ SnapInFlight c call := by
  rcases h with h | ⟨q, x, hx, rfl⟩
  · exact .inl h
  · exact .inr ((exists_installing_of_update hserv hx).elim
      (fun hx => .inr ⟨p, x, hinst hx, rfl⟩) id)

/-- Snapshot calls in flight after a step of server `p` that sends none. -/
theorem SnapInFlight.of_subset {call : SnapCall n} (h : SnapInFlight c' call)
    (hserv : c'.servers = Function.update c.servers p s')
    (hinst : s'.installing ⊆ (c.servers p).installing) (hsnaps : c'.snaps ⊆ c.snaps) :
    SnapInFlight c call :=
  (h.of_update hserv hinst).elim (fun h => .inl (hsnaps h)) id

/-- A step of server `p` does not take it back to an earlier term. -/
theorem currentTerm_le (hs : Sim .strict H c) (hs' : Sim .strict H' c') (e : Ext H H')
    (hserv : c'.servers = Function.update c.servers p s') :
    (c.servers p).raft.currentTerm ≤ s'.raft.currentTerm := by
  have h' := (hs'.raft p).cur
  rw [hserv, Function.update_self] at h'
  rw [h', (hs.raft p).cur]
  exact e.cur p

/-- A step that changes no server. -/
theorem Tracked.lose (hs : Sim .strict H c) (hs' : Sim .strict H' c') (e : Ext H H')
    (ht : Tracked H c) (hserv : c'.servers = c.servers) (ha : c'.appends ⊆ c.appends)
    (hn : c'.snaps ⊆ c.snaps) : Tracked H' c' := by
  refine ht.next e (fun i => ?_) (fun l hl => ?_) (fun _ h => .inl (ha h)) fun call h => ?_
  · rw [hserv]
    exact .refl hs.ok e
  · exact ht.leader_kept hs hs' e (by rw [hserv]; exact .refl _) hl
  · rw [SnapInFlight, hserv] at h
    exact .inl (h.imp (fun h => hn h) id)

/-- A step of server `p` that keeps its log and starts no calls. -/
theorem Tracked.update_log (hs : Sim .strict H c) (hs' : Sim .strict H' c') (e : Ext H H')
    (ht : Tracked H c) (hserv : c'.servers = Function.update c.servers p s')
    (hlog : s'.raft.log = (c.servers p).raft.log) (hl : LeadsOn (c.servers p).raft s'.raft)
    (hinst : s'.installing ⊆ (c.servers p).installing) (ha : c'.appends ⊆ c.appends)
    (hn : c'.snaps ⊆ c.snaps) : Tracked H' c' :=
  ht.update_leadsOn hs hs' e hserv (.of_log hs.ok e hlog (currentTerm_le hs hs' e hserv)) hl
    (fun _ h => .inl (ha h)) fun _ h => .inl (h.of_subset hserv hinst hn)

/-- Only the `Raft` value of a server changes, and its log does not. -/
theorem Tracked.update_raft (hs : Sim .strict H c) (hs' : Sim .strict H' c') (e : Ext H H')
    (ht : Tracked H c) (hserv : c'.servers = Function.update c.servers p s')
    (hlog : s'.raft.log = (c.servers p).raft.log) (hl : LeadsOn (c.servers p).raft s'.raft)
    (hinst : s'.installing = (c.servers p).installing) (ha : c'.appends = c.appends)
    (hn : c'.snaps = c.snaps) : Tracked H' c' := by
  refine ht.update_log hs hs' e hserv hlog hl ?_ ?_ ?_
  · rw [hinst]
    exact List.Subset.refl _
  · rw [ha]
    exact List.Subset.refl _
  · rw [hn]
    exact List.Subset.refl _

end

/-- A heartbeat has no part in the snapshots that are about to be sent. -/
theorem runHeartBeats_installing (s : Server n α) (i : Fin n) :
    (s.runHeartBeats i).installing = s.installing := by
  rw [Server.runHeartBeats]
  split <;> rfl

/-- `Start` appends to the log and leaves its beginning alone. -/
theorem start_log {command : Option α} {g index term : Nat} (hne : rf.log ≠ [])
    (hr : rf.start command g = some (rf', some (index, term))) :
    rf.log ⊆ rf'.log ∧ sentinel rf'.log = sentinel rf.log ∧ LeadsOn rf rf' := by
  rw [Raft.start] at hr
  split at hr
  · cases hr
  next hst =>
  simp only [Option.bind_eq_bind, Option.bind_eq_some_iff] at hr
  obtain ⟨next, _, last, _, hr⟩ := hr
  cases hr
  refine ⟨?_, ?_, fun _ => ⟨not_not.1 hst, rfl, rfl, rfl⟩⟩
  · show rf.log ⊆ rf.log.take rf.log.length ++ _
    rw [List.take_length]
    exact List.subset_append_left ..
  · show sentinel (rf.log.take rf.log.length ++ _) = _
    rw [List.take_length]
    obtain ⟨x, xs, hx⟩ := List.exists_cons_of_ne_nil hne
    rw [hx]
    rfl

/-- A service gives a command to a leader. -/
theorem tracked_start (hs : Sim .strict H c) (hs' : Sim .strict H' c') (e : Ext H H')
    (ht : Tracked H c) {command : Option α} {g : Nat} (hst : Step c (.start i command g) c') :
    Tracked H' c' := by
  cases hst with
  | startRefused => exact ht.lose hs hs' e rfl (List.Subset.refl _) (List.Subset.refl _)
  | @start _ _ _ _ _ raft h =>
    obtain ⟨hraft, _, _⟩ := runHeartBeats_raft ({ c.servers i with raft } : Server n α) i
    obtain ⟨hsub, hsent, hl⟩ := start_log (by rw [(hs.raft i).log.eq]; simp) h
    have hle : (c.servers i).raft.currentTerm ≤ raft.currentTerm := by
      have := currentTerm_le hs hs' e (p := i) rfl
      rw [hraft] at this
      exact this
    refine ht.update_leadsOn hs hs' e rfl ?_ (by rw [hraft]; exact hl) (fun _ h => .inl h)
      fun _ h => .inl (h.of_subset rfl ?_ (List.Subset.refl _))
    · rw [hraft]
      exact ⟨fun hh => hh.mono e hsent hsub hle, fun ha => ha.mono hs.ok e hsent hle⟩
    · rw [runHeartBeats_installing]
      exact List.Subset.refl _

/-- `Snapshot` leaves what a leader knows alone. -/
theorem snapshot_leadsOn {index g : Nat} {b : Bytes} (hr : rf.snapshot index b g = some rf') :
    LeadsOn rf rf' := by
  simp only [Raft.snapshot, Option.bind_eq_bind, Option.bind_eq_some_iff] at hr
  obtain ⟨first, _, hr⟩ := hr
  split at hr
  · cases hr
    exact .refl rf
  split at hr
  · cases hr
  split at hr
  · cases hr
  · cases hr
    exact fun hl => ⟨hl, rfl, rfl, rfl⟩

/-- A service takes a snapshot. -/
theorem tracked_snapshot (hs : Sim .strict H c) (hs' : Sim .strict H' c') (e : Ext H H')
    (ht : Tracked H c) {index g : Nat} {b : Bytes} (hst : Step c (.snapshot i index b g) c') :
    Tracked H' c' := by
  cases hst with
  | @snapshot _ _ _ raft msg hmsg h =>
    have hraft := hs.raft i
    have htip := hs.ok.tip.tip i
    have hle := (hs.goroutines i).delivered msg hmsg
    obtain ⟨hr, _, _, _, hcase⟩ := snapshot_ok hs.ok hs.indexed hraft hle h
    have hcur : raft.currentTerm = (c.servers i).raft.currentTerm := by rw [hr.cur, hraft.cur]
    have hstay : Stays H H (c.servers i).raft raft := by
      rcases hcase with rfl | ⟨hlt, hidx, _⟩
      · exact .refl hs.ok (Ext.refl H)
      refine ⟨fun hh => hh.cut hs.indexed htip hraft.log hraft.clean hr.log
        (by rw [hidx]; exact Nat.le_of_lt hlt) (Nat.le_of_eq hcur.symm), fun _ => ?_⟩
      -- what is applied was committed
      have hci : msg.index ≤ (c.servers i).raft.commitIndex := Nat.le_trans hle hraft.applied_le
      obtain ⟨T, k, hd, hk, hT, heq⟩ :=
        (hraft.agreed.resolve_left id).done (Nat.lt_of_lt_of_le hlt hci)
      refine .inr ⟨T, k, hd, by rw [hidx]; exact Nat.le_trans hci hk, by rw [hr.cur]; exact hT, ?_⟩
      rw [hr.clean, hidx, termAt_congr heq hci]
    exact ht.update_leadsOn hs hs' e rfl (hstay.trans (.refl hs.ok e)) (snapshot_leadsOn h)
      (fun _ h => .inl h) fun _ h =>
        .inl (h.of_subset rfl (List.Subset.refl _) (List.Subset.refl _))

/-- A goroutine sends entries or a snapshot. -/
theorem tracked_replicate (hs : Sim .strict H c) (hs' : Sim .strict H' c') (e : Ext H H')
    (ht : Tracked H c) {k : Nat} (hadm : Mode.strict.Admits c (.replicate i k))
    (hst : Step c (.replicate i k) c') : Tracked H' c' := by
  cases hst with
  | replicateIdle => exact ht.update_raft hs hs' e rfl rfl (.refl _) rfl rfl rfl
  | replicateAppend =>
    exact ht.update_leadsOn hs hs' e rfl (.refl hs.ok e) (.refl _) (mem_or_of_mem_append nofun)
      fun _ h => .inl (h.of_subset rfl (List.Subset.refl _) (List.Subset.refl _))
  | @replicateSnapshot _ _ r args hk h =>
    have hfresh : r.currentTerm = (c.servers i).raft.currentTerm := hadm.1.resolve_left id r hk
    obtain ⟨hterm, hargs⟩ := buildRequest_ok hs.ok hs.indexed (hs.raft i)
      ((hs.goroutines i).replicators r (List.mem_of_getElem? hk)) (.inr hfresh) h
    rw [← (hs.raft i).cur, ← hfresh, ← hterm] at hargs
    refine ht.update_leadsOn hs hs' e rfl (.refl hs.ok e) (.refl _) (fun _ h => .inl h)
      fun call hc => ?_
    rcases hc.of_update rfl (List.Subset.refl _) with hc | hc
    · rcases List.mem_append.1 hc with hc | hc
      · exact .inl (.inl hc)
      · rw [List.mem_singleton.1 hc]
        exact .inr ⟨hargs.mono e, nofun⟩
    · exact .inl hc

/-- A candidate handles a vote, and may become leader. -/
theorem tracked_requestVoteReply (hs : Sim .strict H c) (hs' : Sim .strict H' c') (e : Ext H H')
    (ht : Tracked H c) {k : Nat} (hst : Step c (.requestVoteReply k) c') : Tracked H' c' := by
  cases hst with
  | requestVoteReply _ _ _ h =>
    rcases handleVoteReply_cases h with
      ⟨rfl, _⟩ | ⟨_, _, ⟨_, ⟨rfl, _⟩ | ⟨_, _, _, _, hfalse⟩⟩ | ⟨_, rfl, _⟩⟩
    · exact ht.update_raft hs hs' e rfl rfl (.refl _) rfl rfl rfl
    · exact ht.update_raft hs hs' e rfl rfl (.refl _) rfl rfl rfl
    · cases hfalse
    · exact ht.update_raft hs hs' e rfl rfl (.of_follower rfl) rfl rfl rfl
  | @elected _ call _ s' _ _ _ h =>
    rcases handleVoteReply_cases h with
      ⟨_, hfalse⟩ | ⟨_, _, ⟨_, ⟨_, hfalse⟩ | ⟨rf, _, hbl, rfl, _⟩⟩ | ⟨_, _, hfalse⟩⟩
    · cases hfalse
    · cases hfalse
    · obtain ⟨next, hnext, rfl⟩ := exists_of_becomeLeader hbl
      refine ht.update hs hs' e rfl (.of_log hs.ok e rfl (Nat.le_refl _)) (fun hl q => ?_)
        (fun _ h => .inl h) fun _ h =>
          .inl (h.of_subset rfl (List.Subset.refl _) (List.Subset.refl _))
      -- a new leader starts at the end of the log of its term
      have hraft' := hs'.raft call.caller
      simp only [Cluster.log, Cluster.set, Function.update_self] at hraft'
      have hlen := (hraft'.leader rfl).tip_index
      have hnext' := hraft'.log.getNextIndex (hs'.ok.tip.tip _) hs'.indexed
      have heq : next = (H'.tip call.caller).index + 1 := Option.some.inj (hnext.symm.trans hnext')
      exact ⟨by rw [heq, hlen], Nat.zero_le _, .inr (.inl (Nat.zero_le _))⟩
    · cases hfalse

/-- A server handles entries. -/
theorem tracked_appendEntries (hs : Sim .strict H c) (hs' : Sim .strict H' c') (e : Ext H H')
    (ht : Tracked H c) {k g : Nat} (hst : Step c (.appendEntries k g) c') : Tracked H' c' := by
  cases hst with
  | @appendEntries _ _ call raft reply hk h =>
    obtain ⟨V, j, hargs, _⟩ := hs.appends call (List.mem_of_getElem? hk)
    obtain ⟨hstay, hl, hconf, hholds⟩ :=
      appendEntries_stays hs.ok hs.indexed (hs.raft call.callee) hargs h
    have hback : Stays H H' raft raft := .refl hs.ok e
    refine ht.update_leadsOn hs hs' e rfl (hstay.trans hback) hl (fun call' hc => ?_)
      fun _ h => .inl (h.of_subset rfl (List.Subset.refl _) (List.Subset.refl _))
    rcases List.mem_or_eq_of_mem_set hc with hc | rfl
    · exact .inl hc
    · refine .inr fun r hr => ?_
      cases hr
      refine ⟨hconf, fun hsucc => ?_⟩
      simp only [Cluster.set, Function.update_self]
      exact hback.holds (hholds hsucc)

/-- A leader handles an answer to entries. -/
theorem tracked_appendEntriesReply (hs : Sim .strict H c) (hs' : Sim .strict H' c') (e : Ext H H')
    (ht : Tracked H c) {k : Nat} (hst : Step c (.appendEntriesReply k) c') : Tracked H' c' := by
  cases hst with
  | @appendEntriesReply _ call reply raft _ _ hk hr _ h =>
    have hmem := List.mem_of_getElem? hk
    obtain ⟨V, j, hargs, _⟩ := hs.appends call hmem
    obtain rfl : V = call.args.term := hargs.fresh.resolve_left id
    obtain ⟨hconf, hholds⟩ := ht.appends call hmem reply hr
    obtain ⟨hlog, hcase⟩ := handleAppendEntriesRPCResponse_heard h
    rcases hcase with hl | ⟨hterm, next, k, hheard, hknown⟩
    · exact ht.update_log hs hs' e rfl hlog hl (List.Subset.refl _) List.eraseIdx_subset
        (List.Subset.refl _)
    have hcur := (hs.raft call.caller).cur.symm.trans hterm
    have hkn := ht.leader call.caller hheard.leader call.callee
    rw [hcur] at hkn
    have hj := hargs.le
    have hprev := hargs.prev_le
    have hlen := hargs.slice.length
    have h1 := hkn.next_le
    have h2 := hkn.match_le
    have hstay : Stays H H' (c.servers call.caller).raft raft :=
      .of_log hs.ok e hlog (Nat.le_of_eq hheard.currentTerm.symm)
    refine ht.update_heard hs hs' e rfl hstay hheard ?_ ?_ ?_
      (fun _ h => .inl (List.eraseIdx_subset h))
      fun _ h => .inl (h.of_subset rfl (List.Subset.refl _) (List.Subset.refl _))
    · rw [hcur]
      rcases hknown with ⟨_, rfl, rfl⟩ | ⟨_, hnext, rfl⟩
      · omega
      · have := hnext hconf
        omega
    · rw [hcur]
      rcases hknown with ⟨_, rfl, rfl⟩ | ⟨_, _, rfl⟩ <;> omega
    · rw [hcur]
      rcases hknown with ⟨hsucc, rfl, rfl⟩ | ⟨_, _, rfl⟩
      · rcases Nat.le_total ((c.servers call.caller).raft.matchIndex call.callee)
          (call.args.prevLogIndex + call.args.entries.length) with hle | hle
        · rw [Nat.max_eq_right hle]
          exact hholds hsucc
        · rw [Nat.max_eq_left hle]
          exact hkn.holds
      · exact hkn.holds

/-- A server handles a snapshot. -/
theorem tracked_installSnapshot (hs : Sim .strict H c) (hs' : Sim .strict H' c') (e : Ext H H')
    (ht : Tracked H c) {k g : Nat} (hst : Step c (.installSnapshot k g) c') : Tracked H' c' := by
  cases hst with
  | @installRefused _ _ call raft reply hk h =>
    obtain ⟨hargs, _⟩ := ht.snaps call (.inl (List.mem_of_getElem? hk))
    obtain ⟨hstay, hl, hholds⟩ :=
      installSnapshot_stays hs.ok hs.indexed (hs.raft call.callee) hargs h
    have hback : Stays H H' raft raft := .refl hs.ok e
    refine ht.update_leadsOn hs hs' e rfl (hstay.trans hback) hl (fun _ h => .inl h)
      fun call' hc => ?_
    rcases hc.of_update rfl (List.Subset.refl _) with hc | hc
    · rcases List.mem_or_eq_of_mem_set hc with hc | rfl
      · exact .inl (.inl hc)
      · refine .inr ⟨hargs.mono e, fun r hr hterm => ?_⟩
        cases hr
        simp only [Cluster.log, Cluster.set, Function.update_self]
        exact hback.holds (hholds hterm)
    · exact .inl hc
  | @installSnapshot _ _ call raft reply msg hk h =>
    obtain ⟨hargs, _⟩ := ht.snaps call (.inl (List.mem_of_getElem? hk))
    obtain ⟨hstay, hl, hholds⟩ :=
      installSnapshot_stays hs.ok hs.indexed (hs.raft call.callee) hargs h
    have hback : Stays H H' raft raft := .refl hs.ok e
    refine ht.update_leadsOn hs hs' e rfl (hstay.trans hback) hl (fun _ h => .inl h)
      fun call' hc => ?_
    rcases hc with hc | ⟨q, x, hx, rfl⟩
    · exact .inl (.inl ((List.eraseIdx_sublist ..).subset hc))
    rcases exists_installing_of_update rfl hx with hx | hx
    · rcases List.mem_append.1 hx with hx | hx
      · exact .inl (.inr ⟨_, x, hx, rfl⟩)
      · rw [List.mem_singleton.1 hx]
        refine .inr ⟨hargs.mono e, fun r hr hterm => ?_⟩
        cases hr
        simp only [Cluster.log, Cluster.set, Function.update_self]
        exact hback.holds (hholds hterm)
    · exact .inl hx

/-- A leader handles an answer to a snapshot. -/
theorem tracked_installSnapshotReply (hs : Sim .strict H c) (hs' : Sim .strict H' c')
    (e : Ext H H') (ht : Tracked H c) {k : Nat} (hst : Step c (.installSnapshotReply k) c') :
    Tracked H' c' := by
  cases hst with
  | @installSnapshotReply _ call reply hk hr _ =>
    obtain ⟨hargs, hholds⟩ := ht.snaps call (.inl (List.mem_of_getElem? hk))
    obtain ⟨hlog, hcase⟩ := handleInstallSnapshotRPCResponse_heard (c.servers call.caller).raft
      call.callee call.args reply
    rcases hcase with hl | ⟨hterm, hrt, hheard⟩
    · exact ht.update_log hs hs' e rfl hlog hl (List.Subset.refl _) (List.Subset.refl _)
        List.eraseIdx_subset
    have hcur := (hs.raft call.caller).cur.symm.trans hterm
    have hkn := ht.leader call.caller hheard.leader call.callee
    rw [hcur] at hkn
    have hle := hargs.le
    have hmatch := hkn.match_le
    refine ht.update_heard hs hs' e rfl
      (.of_log hs.ok e hlog (Nat.le_of_eq hheard.currentTerm.symm)) hheard ?_ ?_ ?_
      (fun _ h => .inl h) fun _ h =>
        .inl (h.of_subset rfl (List.Subset.refl _) List.eraseIdx_subset)
    · rw [hcur]
      omega
    · rw [hcur]
      omega
    · rw [hcur]
      rcases Nat.le_total ((c.servers call.caller).raft.matchIndex call.callee)
        call.args.lastIncludedIndex with hle | hle
      · rw [Nat.max_eq_right hle]
        exact hholds reply hr hrt
      · rw [Nat.max_eq_left hle]
        exact hkn.holds

/-- The invariant is kept by every step without a stale send or a conflicting snapshot. -/
theorem tracked_step (hs : Sim .strict H c) (hs' : Sim .strict H' c') (e : Ext H H')
    (ht : Tracked H c) {a : Action n α} (hadm : Mode.strict.Admits c a)
    (hst : c.step a = some c') : Tracked H' c' := by
  have hst := step_cases hst
  cases a with
  | electionTimeout i =>
    cases hst with
    | electionTimeout h =>
      obtain ⟨hlog, hstate⟩ := startElection_log h
      refine ht.update_raft hs hs' e rfl hlog (fun hl => ?_) rfl rfl rfl
      rw [hstate] at hl
      cases hl
  | heartBeat i =>
    cases hst with
    | heartBeat =>
      obtain ⟨hraft, _, _⟩ := runHeartBeats_raft (c.servers i) i
      refine ht.update_log hs hs' e rfl (by rw [hraft]) (by rw [hraft]; exact .refl _) ?_
        (List.Subset.refl _) (List.Subset.refl _)
      rw [runHeartBeats_installing]
      exact List.Subset.refl _
  | start i command g => exact tracked_start hs hs' e ht hst
  | snapshot i index b g => exact tracked_snapshot hs hs' e ht hst
  | replicate i k => exact tracked_replicate hs hs' e ht hadm hst
  | requestVote k =>
    cases hst with
    | requestVote hk h =>
      obtain ⟨hlog, hl⟩ := requestVote_log h
      exact ht.update_raft hs hs' e rfl hlog hl rfl rfl rfl
  | requestVoteReply k => exact tracked_requestVoteReply hs hs' e ht hst
  | appendEntries k g => exact tracked_appendEntries hs hs' e ht hst
  | appendEntriesReply k => exact tracked_appendEntriesReply hs hs' e ht hst
  | installSnapshot k g => exact tracked_installSnapshot hs hs' e ht hst
  | installSnapshotReply k => exact tracked_installSnapshotReply hs hs' e ht hst
  | loseVote k =>
    cases hst with
    | loseVote => exact ht.lose hs hs' e rfl (List.Subset.refl _) (List.Subset.refl _)
  | loseAppend k =>
    cases hst with
    | loseAppend => exact ht.lose hs hs' e rfl List.eraseIdx_subset (List.Subset.refl _)
  | loseSnap k =>
    cases hst with
    | loseSnap => exact ht.lose hs hs' e rfl (List.Subset.refl _) List.eraseIdx_subset
  | takeBatch i =>
    cases hst with
    | takeBatch _ h =>
      obtain ⟨_, rfl, _⟩ := takeBatch_ok hs.ok hs.indexed (hs.raft i) h
      exact ht.update_raft hs hs' e rfl rfl (fun hl => ⟨hl, rfl, rfl, rfl⟩) rfl rfl rfl
  | sendCommand i =>
    cases hst with
    | sendCommand h => exact ht.update_raft hs hs' e rfl rfl (.refl _) rfl rfl rfl
  | sendSnapshot i k =>
    cases hst with
    | @sendSnapshot _ _ x h =>
      refine ht.update_leadsOn hs hs' e rfl (.refl hs.ok e) (.refl _) (fun _ h => .inl h)
        fun call hc => .inl ?_
      rcases hc.of_update rfl List.eraseIdx_subset with hc | hc
      · rcases List.mem_append.1 hc with hc | hc
        · exact .inl hc
        · rw [List.mem_singleton.1 hc]
          exact .inr ⟨i, x, List.mem_of_getElem? h, rfl⟩
      · exact hc
  | kill i =>
    cases hst with
    | kill => exact ht.update_raft hs hs' e rfl rfl (fun hlead => by cases hlead) rfl rfl rfl
  | restart i g =>
    cases hst with
    | restart h =>
      obtain ⟨rf, _, hrf, _, rfl⟩ := exists_of_make h
      obtain ⟨_, _, hmk⟩ := make_eq hs.ok hs.indexed (hs.raft i) g
      rw [hmk] at hrf
      cases hrf
      exact ht.update_log hs hs' e rfl rfl (.of_follower rfl) (List.nil_subset _)
        (List.Subset.refl _) (List.Subset.refl _)

/-- The initial cluster. -/
theorem tracked_init : Tracked Chronicle.init (Cluster.init : Cluster n α) where
  anchored := fun _ => .inl rfl
  leader := nofun
  appends := nofun
  snaps := by
    rintro call (hc | ⟨i, x, hx, _⟩)
    · cases hc
    · cases hx

/-- Every cluster that runs without stale sends and conflicting snapshots reach fits a chronicle,
and its leaders know their followers. -/
theorem exists_tracked (hc : Reachable Mode.strict.Admits c) :
    ∃ H, Sim .strict H c ∧ Tracked H c := by
  induction hc with
  | init => exact ⟨_, sim_init, tracked_init⟩
  | step _ hadm hst ih =>
    obtain ⟨H, hs, ht⟩ := ih
    obtain ⟨H', e, hs'⟩ := sim_step hs hadm hst
    exact ⟨H', hs', tracked_step hs hs' e ht hadm hst⟩

end DistLabs
