import DistLabs.Raft.Log

/-!
# Elections refine the abstract protocol

For every function of `raft.go` that takes part in elections: the abstract steps it performs on the
chronicle, and that the server's new `Raft` value fits the new chronicle.
-/

namespace DistLabs

open Lib Chronicle

variable {n : Nat} {α : Type} {m : Mode} {H : Chron n α} {i : Fin n} {rf rf' : Raft n α}

/-- What elections and replication keep of a server: its snapshot and what it has applied. -/
structure Kept (rf rf' : Raft n α) : Prop where
  first : sentinel rf'.log = sentinel rf.log
  snapshot : rf'.persister.snapshot = rf.persister.snapshot
  lastApplied : rf'.lastApplied = rf.lastApplied
  commit_le : rf.commitIndex ≤ rf'.commitIndex

theorem Kept.refl (rf : Raft n α) : Kept rf rf := ⟨rfl, rfl, rfl, Nat.le_refl _⟩

theorem Kept.trans {rf'' : Raft n α} (h : Kept rf rf') (h' : Kept rf' rf'') : Kept rf rf'' :=
  ⟨h'.first.trans h.first, h'.snapshot.trans h.snapshot, h'.lastApplied.trans h.lastApplied,
    Nat.le_trans h.commit_le h'.commit_le⟩

/-! ## Saving -/

/-- A state that was just saved is durable. -/
theorem durable_save {ps : Persister n α} {b : Bytes}
    (h : rf.persister = ps.save rf.encodeState b) : Durable rf where
  restored := by rw [h]; rfl
  saved := fun hs hhs => by
    rw [h] at hhs ⊢
    cases hhs
    exact List.mem_cons_self

/-- What was just saved is durable. -/
theorem durable_persist (rf : Raft n α) : Durable rf.persist := durable_save rfl

/-- What was saved stays in the history. -/
theorem RaftOK.acked_save (h : RaftOK m H i rf) (hs : HardState n α) (T k : Nat)
    (hb : H.base T < k) (ha : k ≤ H.ack i T) :
    ∃ hs' ∈ hs :: rf.persister.saves, hs'.currentTerm = T ∧ HoldsAt hs'.log k T := by
  obtain ⟨hs', hmem, hT⟩ := h.acked T k hb ha
  exact ⟨hs', List.mem_cons_of_mem _ hmem, hT⟩

/-! ## Changes of role -/

/-- A server may become a follower at any time. -/
theorem RaftOK.toFollower (h : RaftOK m H i rf) : RaftOK m H i rf.toFollower :=
  { h with
    durable := ⟨h.durable.restored, h.durable.saved⟩
    candidate := nofun
    leader := nofun }

/-- A server may be killed at any time. -/
theorem RaftOK.kill (h : RaftOK m H i rf) : RaftOK m H i rf.kill :=
  { h with
    durable := ⟨h.durable.restored, h.durable.saved⟩
    candidate := nofun
    leader := nofun }

/-- Entering a later term is a move. -/
theorem Moves.raise (hok : H.OK) (hidx : Indexed H) {t : Nat} (ht : H.cur i ≤ t) :
    Moves H (H.raise i t) i :=
  ⟨hok.raise ht, ext_raise ht, fun _ hj => frame_raise hj, hidx⟩

/-- `becomeFollower` enters a later term. -/
theorem RaftOK.becomeFollower (hok : H.OK) (h : RaftOK m H i rf) {t : Nat} (ht : H.cur i < t) :
    RaftOK m (H.raise i t) i (rf.becomeFollower t) := by
  have e := ext_raise (Nat.le_of_lt ht)
  have hcur : (H.raise i t).cur i = t := Function.update_self ..
  have hvote : H.vote i t = none := by
    cases hv : H.vote i t with
    | none => rfl
    | some c => exact absurd (hok.vote.vote_le i t c hv) (by omega)
  exact
    { cur := hcur.symm
      vote := by rw [hcur]; exact hvote.symm
      log := h.log.mono e (hok.tip.tip i)
      sentinel_ok := h.sentinel_ok.mono hok e rfl
      spare := h.spare
      durable := durable_persist _
      first_le := h.first_le
      applied_le := h.applied_le
      known := h.known
      agreed := h.agreed.imp id (·.mono hok e rfl)
      candidate := nofun
      leader := nofun
      acked := h.acked_save _ }

/-- Entering a term as a follower keeps the snapshot and what was applied. -/
theorem kept_becomeFollower (rf : Raft n α) (t : Nat) : Kept rf (rf.becomeFollower t) :=
  ⟨rfl, rfl, rfl, Nat.le_refl _⟩

/-- Becoming a follower keeps the snapshot and what was applied. -/
theorem kept_toFollower (rf : Raft n α) : Kept rf rf.toFollower :=
  ⟨rfl, rfl, rfl, Nat.le_refl _⟩

/-- The term check at the start of a handler. -/
theorem RaftOK.stepDown (hok : H.OK) (h : RaftOK m H i rf) (t : Nat) :
    RaftOK m (H.raise i (max (H.cur i) t)) i (rf.stepDown t) := by
  rw [Raft.stepDown, h.cur]
  split
  · rename_i hlt
    rw [Nat.max_eq_right (Nat.le_of_lt hlt)]
    exact h.becomeFollower hok hlt
  · rename_i hge
    rw [Nat.max_eq_left (Nat.le_of_not_lt hge), Chronicle.raise, Function.update_eq_self]
    exact h

theorem stepDown_log (rf : Raft n α) (t : Nat) : (rf.stepDown t).log = rf.log := by
  rw [Raft.stepDown]
  split <;> rfl

theorem stepDown_commitIndex (rf : Raft n α) (t : Nat) :
    (rf.stepDown t).commitIndex = rf.commitIndex := by
  rw [Raft.stepDown]
  split <;> rfl

/-- Stepping down keeps the snapshot and what was applied. -/
theorem kept_stepDown (rf : Raft n α) (t : Nat) : Kept rf (rf.stepDown t) := by
  rw [Raft.stepDown]
  split
  · exact kept_becomeFollower rf t
  · exact .refl rf

/-- Stepping down does not lower the term. -/
theorem le_stepDown_currentTerm (rf : Raft n α) (t : Nat) :
    rf.currentTerm ≤ (rf.stepDown t).currentTerm := by
  rw [Raft.stepDown]
  split
  · next h => exact Nat.le_of_lt h
  · exact Nat.le_refl _

/-- A request of an earlier term does not change the server. -/
theorem stepDown_eq_self {t : Nat} (h : t ≠ (rf.stepDown t).currentTerm) :
    rf.stepDown t = rf := by
  rw [Raft.stepDown] at h ⊢
  split
  · next hgt =>
    rw [if_pos hgt] at h
    exact absurd rfl h
  · rfl

/-- A server that is still a candidate after the term check did not change. -/
theorem stepDown_candidate {t : Nat} (h : (rf.stepDown t).state = .candidate) :
    rf.state = .candidate ∧ t ≤ rf.currentTerm := by
  rw [Raft.stepDown] at h
  split at h
  · cases h
  · exact ⟨h, by omega⟩

/-! ## Candidates -/

/-- Standing for election is a move. -/
theorem Moves.stand (hok : H.OK) (hidx : Indexed H) : Moves H (H.stand i) i :=
  ⟨hok.stand, ext_stand hok.vote, fun _ hj => frame_stand hj, hidx⟩

/-- The state with which an election starts. -/
theorem RaftOK.stand (hok : H.OK) (h : RaftOK m H i rf) :
    RaftOK m (H.stand i) i
      ({ rf with
        currentTerm := rf.currentTerm + 1, state := .candidate, voteFor := some i } :
          Raft n α).persist := by
  have e := ext_stand (c := i) hok.vote
  have hcur : (H.stand i).cur i = H.cur i + 1 := Function.update_self ..
  exact
    { cur := by rw [hcur, ← h.cur]; rfl
      vote := by rw [hcur]; exact (update₂_self ..).symm
      log := h.log.mono e (hok.tip.tip i)
      sentinel_ok := h.sentinel_ok.mono hok e rfl
      spare := h.spare
      durable := durable_persist _
      first_le := h.first_le
      applied_le := h.applied_le
      known := h.known
      agreed := h.agreed.imp id (·.mono hok e rfl)
      candidate := fun _ => by
        rw [hcur]
        refine ⟨update₂_self .., fun hl => ?_⟩
        have := hok.leader_le hl
        omega
      leader := nofun
      acked := h.acked_save _ }

/-- `startElection`. -/
theorem startElection_ok (hok : H.OK) (hidx : Indexed H) (h : RaftOK m H i rf)
    {args : RequestVoteArgs n} (hr : rf.startElection i = some (rf', args)) :
    RaftOK m (H.stand i) i rf' ∧ Kept rf rf' ∧ rf'.state = .candidate ∧
      args = ⟨H.cur i + 1, i, (H.tip i).index, (H.tip i).term⟩ := by
  have hs := h.stand hok
  have htip : ValidPos (H.stand i).ledger ((H.stand i).tip i) := hok.tip.tip i
  simp only [Raft.startElection, hs.log.getLastIndex htip hidx, hs.log.getLastTerm htip hidx,
    Option.bind_eq_bind, Option.bind_some, Option.pure_def, Option.some.injEq, Prod.mk.injEq] at hr
  obtain ⟨rfl, rfl⟩ := hr
  refine ⟨hs, ⟨rfl, rfl, rfl, Nat.le_refl _⟩, rfl, ?_⟩
  rw [← h.cur]
  rfl

/-! ## Votes -/

/-- Granting a vote is a move, if the candidate's log is at least as far. -/
theorem Moves.grant (hok : H.OK) (hidx : Indexed H) {c : Fin n} {z : Pos} {k : Nat}
    (hv : H.vote i (H.cur i) = none ∨ H.vote i (H.cur i) = some c)
    (hr : H.req c (H.cur i) = some (z, k)) (hle : H.tip i ≤ z) : Moves H (H.grant i c) i :=
  ⟨hok.grant hv hr hle, ext_grant hv, fun _ hj => frame_grant hj, hidx⟩

/-- `castVote` casts the vote of the current term. -/
theorem RaftOK.castVote (hok : H.OK) (h : RaftOK m H i rf) {c : Fin n}
    (hv : H.vote i (H.cur i) = none ∨ H.vote i (H.cur i) = some c) :
    RaftOK m (H.grant i c) i (rf.castVote c) := by
  have e := ext_grant hv
  rw [Raft.castVote, h.vote]
  split
  · exact
      { cur := h.cur
        vote := (update₂_self ..).symm
        log := h.log.mono e (hok.tip.tip i)
        sentinel_ok := h.sentinel_ok
        spare := h.spare
        durable := durable_persist _
        first_le := h.first_le
        applied_le := h.applied_le
        known := h.known
        agreed := h.agreed.imp id (·.mono hok e rfl)
        candidate := h.candidate
        leader := fun hs =>
          have l := h.leader hs
          ⟨l.leader, l.tip, l.clean, l.hor, l.ack, l.done, l.next, l.matched⟩
        acked := h.acked_save _ }
  · rename_i hne
    have hsome := hv.resolve_left hne
    have hsame : H.grant i c = H := by
      have : update₂ H.vote i (H.cur i) (some c) = H.vote := by
        funext q U
        by_cases heq : q = i ∧ U = H.cur i
        · obtain ⟨rfl, rfl⟩ := heq
          rw [update₂_self, hsome]
        · exact update₂_of_ne heq
      rw [Chronicle.grant, this]
    rw [hsame]
    exact h

/-- Casting a vote keeps the snapshot and what was applied. -/
theorem kept_castVote (rf : Raft n α) (c : Fin n) : Kept rf (rf.castVote c) := by
  rw [Raft.castVote]
  split
  · exact ⟨rfl, rfl, rfl, Nat.le_refl _⟩
  · exact .refl rf

/-- Casting a vote does not change the role. -/
theorem castVote_state (rf : Raft n α) (c : Fin n) : (rf.castVote c).state = rf.state := by
  rw [Raft.castVote]
  split <;> rfl

/-- `RequestVote` after the term check: a vote is granted only to a candidate that is at least as
up to date. -/
theorem decideVote_ok (hok : H.OK) (hidx : Indexed H) (h : RaftOK m H i rf)
    {args : RequestVoteArgs n} {reply : RequestVoteReply} {k : Nat}
    (hreq : H.req args.candidateId args.term = some (⟨args.lastLogTerm, args.lastLogIndex⟩, k))
    (hr : rf.decideVote args = some (rf', reply)) :
    ∃ H', Moves H H' i ∧ RaftOK m H' i rf' ∧ Kept rf rf' ∧ rf'.state = rf.state ∧
      H'.cur i = H.cur i ∧
      (reply.voteGranted = true → H'.vote i args.term = some args.candidateId) := by
  simp only [Raft.decideVote, h.log.getLastIndex (hok.tip.tip i) hidx,
    h.log.getLastTerm (hok.tip.tip i) hidx, Option.bind_eq_bind, Option.bind_some,
    Option.pure_def] at hr
  split at hr
  · rename_i hcond
    obtain ⟨hterm, hvote, hlast⟩ := hcond
    simp only [Option.some.injEq, Prod.mk.injEq] at hr
    obtain ⟨rfl, rfl⟩ := hr
    rw [h.vote] at hvote
    rw [h.cur] at hterm
    rw [← hterm] at hreq
    have hle : H.tip i ≤ ⟨args.lastLogTerm, args.lastLogIndex⟩ := by
      rw [Pos.le_def]
      simp only
      omega
    refine ⟨H.grant i args.candidateId, .grant hok hidx hvote hreq hle, h.castVote hok hvote,
      kept_castVote .., castVote_state .., rfl, fun _ => ?_⟩
    rw [← hterm]
    exact update₂_self ..
  · simp only [Option.some.injEq, Prod.mk.injEq] at hr
    obtain ⟨rfl, rfl⟩ := hr
    exact ⟨H, .refl hok hidx i, h, .refl _, rfl, rfl, nofun⟩

/-- `RequestVote`. -/
theorem requestVote_ok (hok : H.OK) (hidx : Indexed H) (h : RaftOK m H i rf)
    {args : RequestVoteArgs n} {reply : RequestVoteReply} {k : Nat}
    (hreq : H.req args.candidateId args.term = some (⟨args.lastLogTerm, args.lastLogIndex⟩, k))
    (hr : rf.requestVote args = some (rf', reply)) :
    ∃ H', Moves H H' i ∧ RaftOK m H' i rf' ∧ Kept rf rf' ∧
      (rf'.state = .candidate → rf.state = .candidate ∧ H'.cur i = H.cur i) ∧
      (reply.voteGranted = true → H'.vote i args.term = some args.candidateId) := by
  rw [Raft.requestVote] at hr
  split at hr
  · simp only [Option.some.injEq, Prod.mk.injEq] at hr
    obtain ⟨rfl, rfl⟩ := hr
    exact ⟨H, .refl hok hidx i, h, .refl _, fun hs => ⟨hs, rfl⟩, nofun⟩
  · have m₁ : Moves H (H.raise i (max (H.cur i) args.term)) i :=
      .raise hok hidx (Nat.le_max_left ..)
    obtain ⟨H', m₂, h', hkept, hstate, hcur, hgrant⟩ :=
      decideVote_ok m₁.ok m₁.indexed (h.stepDown hok args.term) (m₁.ext.req _ _ _ hreq) hr
    refine ⟨H', m₁.trans m₂, h', (kept_stepDown ..).trans hkept, fun hs => ?_, hgrant⟩
    rw [hstate] at hs
    obtain ⟨h1, h2⟩ := stepDown_candidate hs
    rw [h.cur] at h2
    refine ⟨h1, ?_⟩
    rw [hcur, Nat.max_eq_left h2]
    exact Function.update_self ..

/-! ## Leaders -/

/-- Winning an election with the votes of a majority is a move. -/
theorem Moves.elect (hok : H.OK) (hidx : Indexed H) {Q : Finset (Fin n)} (hQ : Quorum Q)
    (hv : ∀ p ∈ Q, H.vote p (H.cur i) = some i)
    (hr : H.req i (H.cur i) = some (H.tip i, H.hor i)) (hl : H.leader (H.cur i) = none) :
    Moves H (H.elect i) i := by
  refine ⟨hok.elect hQ hv hr hl, ext_elect hok hl, fun _ hj => frame_elect hl hj, ?_⟩
  intro V k e he
  by_cases hV : V = H.cur i
  · subst hV
    simp only [Chronicle.elect, Function.update_self] at he
    exact hidx.path he
  · simp only [Chronicle.elect, Function.update_of_ne hV] at he
    exact hidx V k e he

/-- A candidate with a majority of the votes is the first leader of its term. -/
theorem leader_eq_none (hok : H.OK) {Q : Finset (Fin n)} (hQ : Quorum Q)
    (hv : ∀ p ∈ Q, H.vote p (H.cur i) = some i) (hne : H.leader (H.cur i) ≠ some i) :
    H.leader (H.cur i) = none := by
  cases hl : H.leader (H.cur i) with
  | none => rfl
  | some c => exact absurd (by rw [hl, hok.leader_unique hQ hv hl]) hne

/-- The sentinel of a new leader lies on the leader's log: a snapshot that conflicts with the log
stands for something committed, and the election shows that the log has it. -/
theorem RaftOK.elect_clean (h : RaftOK m H i rf) (hok' : (H.elect i).OK)
    (hhor : H.hor i < H.cur i) :
    (sentinel rf.log).term = termAt (H.path (H.tip i)) (sentinel rf.log).index := by
  rcases h.sentinel_ok with hs | ⟨_, T, k, hd, hk, hs, hT, _⟩
  · exact hs
  · have hne : T ≠ H.cur i := by omega
    have hled : (H.elect i).ledger (H.cur i) = H.path (H.tip i) := Function.update_self ..
    have hledT : (H.elect i).ledger T = H.ledger T := Function.update_of_ne hne ..
    have hel : (H.elect i).Elected (H.cur i) := by simp [Chronicle.elect]
    obtain ⟨_, htake⟩ := hok'.done_complete (T := T) (i := k) hd (by omega) hel
    rw [hled, hledT] at htake
    rw [termAt_congr htake hk, hs]

/-- A new leader starts at the end of its log. -/
theorem exists_of_becomeLeader (h : rf.becomeLeader = some rf') :
    ∃ next, rf.getNextIndex = some next ∧
      rf' = { rf with
        state := .leader
        nextIndex := fun _ => next
        matchIndex := fun _ => 0 } := by
  rw [Raft.becomeLeader, Option.bind_eq_bind, Option.bind_eq_some_iff] at h
  obtain ⟨next, hnext, h⟩ := h
  cases h
  exact ⟨next, hnext, rfl⟩

/-- `becomeLeader` with a majority of the votes. -/
theorem becomeLeader_ok (hok : H.OK) (hidx : Indexed H) (h : RaftOK m H i rf)
    (hcand : rf.state = .candidate) {Q : Finset (Fin n)} (hQ : Quorum Q)
    (hv : ∀ p ∈ Q, H.vote p (H.cur i) = some i) (hr : rf.becomeLeader = some rf') :
    Moves H (H.elect i) i ∧ RaftOK m (H.elect i) i rf' ∧ Kept rf rf' ∧ rf'.state = .leader ∧
      LeaderLog (H.elect i) (H.cur i) ((H.elect i).base (H.cur i)) rf'.log := by
  obtain ⟨hreq, hne⟩ := h.candidate hcand
  have hl := leader_eq_none hok hQ hv hne
  have mv : Moves H (H.elect i) i := .elect hok hidx hQ hv hreq hl
  have e := mv.ext
  have htip := hok.tip.tip i
  have hhor := hok.hor_lt hQ hv hreq
  have hclean := h.elect_clean mv.ok hhor
  have hled : (H.elect i).ledger (H.cur i) = H.path (H.tip i) := Function.update_self ..
  have hbase : (H.elect i).base (H.cur i) = (H.tip i).index := Function.update_self ..
  have hlen : (H.path (H.tip i)).length = (H.tip i).index := htip.length_pathTo
  simp only [Raft.becomeLeader, h.log.getNextIndex htip hidx, Option.bind_eq_bind,
    Option.bind_some, Option.pure_def, Option.some.injEq] at hr
  subst hr
  have hlead : LeaderOK (H.elect i) i { rf with
      state := .leader, nextIndex := fun _ => (H.tip i).index + 1, matchIndex := fun _ => 0 } :=
    { leader := Function.update_self ..
      tip := by
        show H.tip i = posAt ((H.elect i).ledger (H.cur i)) ((H.elect i).ledger (H.cur i)).length
        rw [hled, hlen, posAt, termAt_pathTo (Nat.le_refl _), htip.2]
      clean := by
        show _ = termAt ((H.elect i).ledger (H.cur i)) _
        rw [hled]
        exact hclean
      hor := Nat.le_of_lt hhor
      ack := fun hlt => by
        change (H.elect i).base (H.cur i) < ((H.elect i).ledger (H.cur i)).length at hlt
        rw [hled, hbase, hlen] at hlt
        omega
      done := fun k hd => absurd hl (hok.ack.done_range _ _ hd).1
      next := fun _ => .inl (by
        show (H.elect i).base (H.cur i) < _
        rw [hbase]
        exact Nat.lt_succ_self _)
      matched := fun _ => .inl (Nat.zero_le _) }
  refine ⟨mv, ?_, ⟨rfl, rfl, rfl, Nat.le_refl _⟩, rfl, ?_⟩
  · exact
      { cur := h.cur
        vote := h.vote
        log := h.log.mono e htip
        sentinel_ok := h.sentinel_ok.mono hok e rfl
        spare := h.spare.mono e
        durable := ⟨h.durable.restored, h.durable.saved⟩
        first_le := h.first_le
        applied_le := h.applied_le
        known := h.known.mono e (Nat.le_refl _)
        agreed := h.agreed.imp id (·.mono hok e rfl)
        candidate := fun hc => by cases hc
        leader := fun _ => hlead
        acked := fun T k hb ha => h.acked T k (base_lt_of_ack hok e hb ha) ha }
  · rw [hbase]
    refine ⟨?_, h.log.le, by rw [hled, hlen], by rw [hled]; exact hclean⟩
    rw [hled, List.take_of_length_le (Nat.le_of_eq hlen)]
    exact h.log.eq

end DistLabs
