import DistLabs.Raft.Simulation
import Mathlib.Algebra.GroupWithZero.Nat

/-!
# Safety of clusters

What the simulation gives for the servers themselves: at most one leader a term, committed entries
reach every later leader, a commit rests on a majority of saved logs, entries are identified by
index and term, and a restart loses nothing. These hold of every run. State machine safety and log
matching need a condition on the run each, and runs that break them without it are given.
-/

namespace DistLabs

open Lib Chronicle

variable {n : Nat} {α : Type} {m : Mode} {H : Chron n α} {c c' : Cluster n α}

/-- The cluster that a list of actions leads to. -/
abbrev afterRun (ok : Cluster n α → Action n α → Prop) [∀ c a, Decidable (ok c a)]
    (as : List (Action n α)) : Cluster n α :=
  reached Cluster.step ok Cluster.init as

/-- Most runs are of three servers, named by numerals. -/
instance neZero_three : NeZero 3 := ⟨by decide⟩

/-! ## Elections -/

/-- **Election safety.** No two servers execute `becomeLeader` in the same term. -/
theorem election_safety (hc : Reachable Always c) {i j : Fin n} {term : Nat}
    {log log' : List (LogEntry α)} (hi : .becomeLeader i term log ∈ c.trace)
    (hj : .becomeLeader j term log' ∈ c.trace) : i = j := by
  obtain ⟨H, hs⟩ := exists_sim_any hc
  have h1 := (hs.trace _ hi).1
  rw [(hs.trace _ hj).1] at h1
  exact (Option.some.inj h1).symm

/-- Server 0 is elected with the votes of itself and server 1, while server 2 votes too. -/
def electionRun : List (Action 3 Nat) :=
  [.electionTimeout 0, .requestVote 0, .requestVote 1, .requestVoteReply 1, .requestVoteReply 0]

/-- Server 0 wins the election of term 1. -/
theorem electionRun_one_leader :
    .becomeLeader 0 1 [.zero] ∈ (afterRun Always electionRun).trace ∧
      ∀ j log, .becomeLeader j 1 log ∈ (afterRun Always electionRun).trace → 0 = j := by
  have h0 : .becomeLeader 0 1 [.zero] ∈ (afterRun Always electionRun).trace := by decide
  exact ⟨h0, fun _ _ hj => election_safety (reach_reached electionRun) h0 hj⟩

/-! ## Commits -/

namespace LeaderLog

variable {V j : Nat} {log : List (LogEntry α)} (h : LeaderLog H V j log)
include h

/-- The terms of the entries of a leader's log, its sentinel included. -/
theorem term_eq (hidx : Indexed H) {e : LogEntry α} (he : e ∈ log) :
    e.index ≤ j ∧ e.term = termAt (H.ledger V) e.index := by
  rw [h.eq, List.mem_cons] at he
  rcases he with rfl | he
  · exact ⟨h.first_le, h.clean⟩
  · obtain ⟨k, hk⟩ := List.getElem?_of_mem he
    rw [List.getElem?_drop, List.getElem?_take] at hk
    split at hk
    · next hlt =>
      rw [hidx _ _ _ hk, termAt_of_getElem? hk]
      exact ⟨hlt, rfl⟩
    · cases hk

/-- A leader's log holds every index past its sentinel. -/
theorem exists_mem (hidx : Indexed H) {i : Nat} (hi : (sentinel log).index < i) (hj : i ≤ j) :
    ∃ e ∈ log, e.index = i := by
  obtain ⟨e, he, _⟩ := exists_getElem? (l := (H.ledger V).take j) (i := i) (by omega)
    (by rw [List.length_take_of_le h.le]; exact hj)
  refine ⟨e, ?_, ?_⟩
  · rw [h.eq]
    refine List.mem_cons_of_mem _ (List.mem_of_getElem? (i := i - 1 - (sentinel log).index) ?_)
    rw [List.getElem?_drop, ← he]
    congr 1
    omega
  · rw [List.getElem?_take] at he
    split at he
    · rw [hidx _ _ _ he]
      omega
    · cases he

end LeaderLog

/-- `term` is the term of the entry that was committed at `index`: whenever a leader advanced its
`commitIndex` to `index` or beyond with an entry of that index in its log, its term was `term`. -/
def CommittedTerm (trace : List (Event n α)) (index term : Nat) : Prop :=
  ∀ l t k log, .commit l t k log ∈ trace → index ≤ k → ∀ e ∈ log, e.index = index → e.term = term

/-- **Leader completeness.** What a leader of term `t` committed is in the log of every leader of a
later term when it is elected, or below that log's snapshot. -/
theorem leader_completeness (hc : Reachable Always c) {l l' : Fin n} {t t' k i : Nat}
    {log log' : List (LogEntry α)} (hcommit : .commit l t k log ∈ c.trace) (hik : i ≤ k)
    (hlead : .becomeLeader l' t' log' ∈ c.trace) (ht : t < t') :
    i ≤ (sentinel log').index ∨
      ∃ e ∈ log', e.index = i ∧ CommittedTerm c.trace i e.term := by
  obtain ⟨H, hs⟩ := exists_sim_any hc
  obtain ⟨_, hd, _⟩ := hs.trace _ hcommit
  obtain ⟨hl', hlog'⟩ := hs.trace _ hlead
  have hel : H.Elected t' := elected_of_leader hl'
  obtain ⟨hbase, htake⟩ := hs.ok.done_complete hd ht hel
  rcases Nat.lt_or_ge (sentinel log').index i with hlt | hge
  swap
  · exact .inl hge
  obtain ⟨e, he, rfl⟩ := hlog'.exists_mem hs.indexed hlt (Nat.le_trans hik hbase)
  refine .inr ⟨e, he, rfl, fun l₀ t₀ k₀ log₀ hev hk₀ e₀ he₀ heq => ?_⟩
  obtain ⟨_, hd₀, _, _, hlog₀⟩ := hs.trace _ hev
  rw [(hlog₀.term_eq hs.indexed he₀).2, (hlog'.term_eq hs.indexed he).2, heq,
    termAt_congr htake hik]
  exact termAt_congr (hs.ok.done_agree hd₀ hd hk₀ hik) (Nat.le_refl _)

/-- Server 0 commits an entry in term 1 with server 1; then server 1 is elected in term 2. -/
def handoverRun : List (Action 3 Nat) :=
  [.electionTimeout 0, .requestVote 0, .requestVoteReply 0, .start 0 (some 7) 0,
    .replicate 0 0, .appendEntries 0 0, .appendEntriesReply 0,
    .electionTimeout 1, .requestVote 2, .requestVoteReply 2]

/-- The leader of term 2 has what was committed in term 1. -/
theorem handoverRun_complete :
    .commit 0 1 1 [.zero, ⟨some 7, 1, 1⟩] ∈ (afterRun Always handoverRun).trace ∧
      .becomeLeader 1 2 [.zero, ⟨some 7, 1, 1⟩] ∈ (afterRun Always handoverRun).trace ∧
      (1 ≤ (sentinel [LogEntry.zero, ⟨some 7, 1, 1⟩]).index ∨
        ∃ e ∈ [LogEntry.zero, ⟨some 7, 1, 1⟩], e.index = 1 ∧
          CommittedTerm (afterRun Always handoverRun).trace 1 e.term) := by
  have h1 : .commit 0 1 1 [.zero, ⟨some 7, 1, 1⟩] ∈ (afterRun Always handoverRun).trace := by
    decide
  have h2 : .becomeLeader 1 2 [.zero, ⟨some 7, 1, 1⟩] ∈ (afterRun Always handoverRun).trace := by
    decide
  exact ⟨h1, h2, leader_completeness (reach_reached handoverRun) h1 (Nat.le_refl 1) h2 (by decide)⟩

/-- New commits come from the counting loop of `handleAppendEntriesRPCResponse`. -/
theorem exists_call_of_commit {a : Action n α} (hst : c.step a = some c')
    {events : List (Event n α)} (htr : c'.trace = c.trace ++ events) {l : Fin n} {t k : Nat}
    {log : List (LogEntry α)} (hev : .commit l t k log ∈ events) :
    ∃ call ∈ c.appends, ∃ reply rf again assigned, call.reply = some reply ∧ call.caller = l ∧
      (c.servers call.caller).raft.handleAppendEntriesRPCResponse call.caller call.callee call.args
        reply = some (rf, again, assigned) ∧ k ∈ assigned ∧ t = rf.currentTerm ∧ log = rf.log ∧
      (c'.servers call.caller).raft = rf := by
  -- an action that records nothing, or one other event, is not the one
  have hnone : c'.trace ≠ c.trace := fun h => by
    rw [h, List.self_eq_append_right] at htr
    rw [htr] at hev
    cases hev
  have hone : ∀ {ev : Event n α}, c'.trace = c.trace ++ [ev] → ev = .commit l t k log :=
    fun h => by
      rw [h] at htr
      rw [← List.append_cancel_left htr] at hev
      exact (List.mem_singleton.1 hev).symm
  cases step_cases hst with
  | @appendEntriesReply _ call reply rf again assigned hk hr _ hae =>
    rw [← List.append_cancel_left htr] at hev
    obtain ⟨k, hk', heq⟩ := List.mem_map.1 hev
    cases heq
    exact ⟨call, List.mem_of_getElem? hk, reply, rf, again, assigned, hr, rfl, hae, hk', rfl, rfl,
      by simp [Cluster.log, Cluster.set]⟩
  | start | snapshot | elected | installRefused | installSnapshot | sendCommand | sendSnapshot =>
    cases hone rfl
  | _ => exact absurd rfl hnone

/-- **Commit soundness.** When a leader of term `t` assigns `k` to `commitIndex`, its entry at `k`
is of term `t`, and a majority of the servers, itself among them, had saved that entry, or a
snapshot that covers it, while they were in term `t`. -/
theorem commit_sound (hc : Reachable Always c) {a : Action n α} (hst : c.step a = some c')
    {events : List (Event n α)} (htr : c'.trace = c.trace ++ events) {l : Fin n} {t k : Nat}
    {log : List (LogEntry α)} (hev : .commit l t k log ∈ events) :
    (c'.servers l).raft.currentTerm = t ∧ (c'.servers l).raft.log = log ∧
      (∃ e ∈ log, e.index = k ∧ e.term = t) ∧
      ∃ Q : Finset (Fin n), n < 2 * Q.card ∧ l ∈ Q ∧
        ∀ p ∈ Q, ∃ hs ∈ (c.servers p).raft.persister.saves,
          hs.currentTerm = t ∧ HoldsAt hs.log k t := by
  obtain ⟨H, hs⟩ := exists_sim_any hc
  obtain ⟨call, hmem, reply, rf, again, assigned, hr, rfl, hae, hk, rfl, rfl, hrf⟩ :=
    exists_call_of_commit hst htr hev
  obtain ⟨V, j, hargs, hreply⟩ := hs.appends call hmem
  obtain ⟨H', hh, hall⟩ := handleAppendEntriesRPCResponse_ok hs.ok hs.indexed
    (hs.raft call.caller) hargs (hreply reply hr) hae
  obtain ⟨hcur, hgt, ⟨hb, _, Q, hQ, hl, hack⟩, hevent⟩ := hall k hk
  obtain ⟨_, hd, j', hkj, hlog⟩ := hevent
  refine ⟨by rw [hrf], by rw [hrf], ?_, Q, ?_, hl, fun p hp => ?_⟩
  · have hfirst : (sentinel rf.log).index < k := by
      rw [hh.kept.first]
      exact Nat.lt_of_le_of_lt
        (hs.raft call.caller).first_le_commit hgt
    obtain ⟨hel, hb', hlen'⟩ := hh.moves.ok.ack.done_range _ _ hd
    obtain ⟨e, he, hei⟩ := hlog.exists_mem hh.moves.indexed hfirst hkj
    refine ⟨e, he, hei, ?_⟩
    rw [(hlog.term_eq hh.moves.indexed he).2, hei]
    exact hh.moves.ok.ledger.own _ k hel hb' hlen'
  · rw [Quorum, Fintype.card_fin] at hQ
    exact hQ
  · rw [hcur]
    exact (hs.raft p).acked _ k hb (hack p hp)

/-- Server 0 is elected and sends its first entry to server 1, whose reply is on its way. -/
def commitRun : List (Action 3 Nat) :=
  [.electionTimeout 0, .requestVote 0, .requestVoteReply 0, .start 0 (some 7) 0,
    .replicate 0 0, .appendEntries 0 0]

/-- A commit that the saved logs of two servers of three support. -/
theorem commitRun_sound :
    (afterRun Always commitRun).step (.appendEntriesReply 0) =
        some (afterRun Always (commitRun ++ [.appendEntriesReply 0])) ∧
      (afterRun Always (commitRun ++ [.appendEntriesReply 0])).trace =
        (afterRun Always commitRun).trace ++ [.commit 0 1 1 [.zero, ⟨some 7, 1, 1⟩]] ∧
      ∃ Q : Finset (Fin 3), 3 < 2 * Q.card ∧ 0 ∈ Q ∧
        ∀ p ∈ Q, ∃ hs ∈ ((afterRun Always commitRun).servers p).raft.persister.saves,
          hs.currentTerm = 1 ∧ HoldsAt hs.log 1 1 := by
  have htr : (afterRun Always (commitRun ++ [.appendEntriesReply 0])).trace =
      (afterRun Always commitRun).trace ++ [.commit 0 1 1 [.zero, ⟨some 7, 1, 1⟩]] := by decide
  exact ⟨rfl, htr, (commit_sound (reach_reached commitRun) (a := .appendEntriesReply 0) rfl htr
    (List.mem_singleton.2 rfl)).2.2.2⟩

/-! ## Restarting -/

/-- **Durability.** `Make` on the `Persister` of a server restores its term, vote and log, and the
saved snapshot is the one that was handed over with the index of the log's sentinel. -/
theorem restart_restores (hc : Reachable Always c) (i : Fin n) (grow : Nat) :
    (∃ rf, Raft.make (c.servers i).raft.persister grow = some rf ∧
      rf.currentTerm = (c.servers i).raft.currentTerm ∧
      rf.voteFor = (c.servers i).raft.voteFor ∧ rf.log = (c.servers i).raft.log) ∧
    ((sentinel (c.servers i).raft.log).index = 0 → (c.servers i).raft.persister.snapshot = []) ∧
    ((sentinel (c.servers i).raft.log).index ≠ 0 →
      .snapshot i (sentinel (c.servers i).raft.log).index (c.servers i).raft.persister.snapshot ∈
        c.trace ∨
      .installSnapshot i (sentinel (c.servers i).raft.log).index
        (c.servers i).raft.persister.snapshot ∈ c.trace) := by
  obtain ⟨H, hs⟩ := exists_sim_any hc
  refine ⟨?_, fun h0 => ?_, fun h0 => ?_⟩
  · obtain ⟨_, _, hmake⟩ := make_eq hs.ok hs.indexed (hs.raft i) grow
    exact ⟨_, hmake, rfl, rfl, rfl⟩
  · have := hs.snapshots i
    rw [SnapshotOK, if_pos h0] at this
    exact this
  · have := hs.snapshots i
    rw [SnapshotOK, if_neg h0] at this
    exact this

/-- Server 0 commits and applies an entry and then takes a snapshot. -/
def compactRun : List (Action 3 Nat) :=
  commitRun ++ [.appendEntriesReply 0, .takeBatch 0, .sendCommand 0, .snapshot 0 1 [42] 0]

/-- After a snapshot, a server starts with its term, its vote and the rest of its log. -/
theorem compactRun_restores :
    (∃ rf, Raft.make ((afterRun Always compactRun).servers 0).raft.persister 0 = some rf ∧
      rf.currentTerm = 1 ∧ rf.voteFor = some 0 ∧ rf.log = [⟨none, 1, 1⟩]) ∧
    .snapshot 0 1 [42] ∈ (afterRun Always compactRun).trace := by
  obtain ⟨⟨rf, h1, h2, h3, h4⟩, _, _⟩ := restart_restores (reach_reached compactRun) 0 0
  exact ⟨⟨rf, h1, h2, h3, h4⟩, by decide⟩

/-! ## Entries -/

/-- The entry `e` occurs in the cluster: in a log past its sentinel, in a request, or in a message
that was sent to a service. -/
inductive Occurs (c : Cluster n α) : LogEntry α → Prop
  | log {e : LogEntry α} (i : Fin n) (he : e ∈ (c.servers i).raft.log.tail) : Occurs c e
  | request {e : LogEntry α} (call : AppendCall n α) (hc : call ∈ c.appends)
      (he : e ∈ call.args.entries) : Occurs c e
  | applied (i : Fin n) (command : Option α) (index term : Nat)
      (he : .apply i (.command command index term) ∈ c.trace) : Occurs c ⟨command, term, index⟩

/-- An entry that occurs is a zero cell, or was appended by the leader of its term. -/
theorem Occurs.minted (hs : Sim m H c) {e : LogEntry α} (h : Occurs c e) :
    e = .zero ∨ Minted H e := by
  cases h with
  | log i he =>
    rw [(hs.raft i).log.eq, List.tail_cons] at he
    obtain ⟨k, hk⟩ := List.getElem?_of_mem he
    rw [List.getElem?_drop] at hk
    exact .inr (minted_of_path hs.ok hs.indexed hk)
  | request call hc he =>
    obtain ⟨V, j, hargs, _⟩ := hs.appends call hc
    rw [hargs.entries] at he
    obtain ⟨k, hk⟩ := List.getElem?_of_mem he
    rw [List.getElem?_drop, List.getElem?_take] at hk
    split at hk
    · exact .inr (minted_of_ledger hs.ok hs.indexed hk)
    · cases hk
  | applied i command index term he => exact (hs.trace _ he).minted

/-- Two entries that may be sent to a service agree when their index and term do. -/
theorem eq_of_minted {e e' : LogEntry α} (h : e = .zero ∨ Minted H e)
    (h' : e' = .zero ∨ Minted H e') (hi : e.index = e'.index) (ht : e.term = e'.term) :
    e = e' := by
  rcases h with rfl | h
  · rcases h' with rfl | h'
    · rfl
    · exact absurd h'.1 (by rw [← hi]; exact Nat.lt_irrefl 0)
  · rcases h' with rfl | h'
    · exact absurd h.1 (by rw [hi]; exact Nat.lt_irrefl 0)
    · exact h.unique h' hi ht

/-- **`Start` identifies the entry.** Entries that occur at any two moments of a run and have the
same index and term have the same command; so what is applied under the index and term that `Start`
returned is the command it was given. -/
theorem start_identifies (hc : Reachable Always c) (hc' : Reach Cluster.step Always c c') :
    (∀ e e', Occurs c e → Occurs c' e' → e.index = e'.index → e.term = e'.term →
      e.command = e'.command) ∧
    ∀ i j command command' index term, .start i command index term ∈ c'.trace →
      .apply j (.command command' index term) ∈ c'.trace → command' = command := by
  obtain ⟨H, hs⟩ := exists_sim_any hc
  obtain ⟨H', e, hs'⟩ := sim_run hs (hc'.mono fun _ _ _ => any_admits)
  constructor
  · intro x x' hx hx' hi ht
    rw [eq_of_minted ((hx.minted hs).imp id (·.mono e)) (hx'.minted hs') hi ht]
  · intro i j command command' index term hstart happly
    have h1 := (hs'.trace _ hstart).2
    have h2 := (hs'.trace _ happly).minted
    exact congrArg LogEntry.command (eq_of_minted h2 (.inr h1) rfl rfl)

/-- The command that was applied is the one that was given to `Start`. -/
theorem compactRun_identifies :
    .start 0 (some 7) 1 1 ∈ (afterRun Always compactRun).trace ∧
      .apply 0 (.command (some 7) 1 1) ∈ (afterRun Always compactRun).trace ∧
      ∀ j command, .apply j (.command command 1 1) ∈ (afterRun Always compactRun).trace →
        command = some 7 := by
  have h1 : .start 0 (some 7) 1 1 ∈ (afterRun Always compactRun).trace := by decide
  exact ⟨h1, by decide, fun j command h2 =>
    (start_identifies (reach_reached compactRun) .init).2 0 j (some 7) command 1 1 h1 h2⟩

/-! ## State machine safety -/

/-- A committed entry is determined by its index. -/
theorem Chosen.unique (hok : H.OK) {e e' : LogEntry α} (h : Chosen H e) (h' : Chosen H e')
    (hi : e.index = e'.index) : e = e' := by
  obtain ⟨T, k, hd, h0, hk, he⟩ := h
  obtain ⟨T', k', hd', _, hk', he'⟩ := h'
  have htake := hok.done_agree hd hd' hk (by omega)
  have := congrArg (·[e.index - 1]?) htake
  simp only [List.getElem?_take, if_pos (show e.index - 1 < e.index by omega)] at this
  rw [he, hi, he'] at this
  exact Option.some.inj this

/-- **State machine safety**, in the runs in which no replication goroutine sends after its server
entered a later term: two commands that services received under the same index are equal. -/
theorem state_machine_safety (hc : Reachable NoStaleSend c) {i j : Fin n}
    {command command' : Option α} {index term term' : Nat}
    (hi : .apply i (.command command index term) ∈ c.trace)
    (hj : .apply j (.command command' index term') ∈ c.trace) :
    command = command' ∧ term = term' := by
  obtain ⟨H, hs⟩ := exists_sim (m := ⟨False, True⟩) (hc.mono fun _ _ h => ⟨.inr h, .inl trivial⟩)
  have h1 := (hs.trace _ hi).chosen.resolve_left id
  have h2 := (hs.trace _ hj).chosen.resolve_left id
  have heq := h1.unique hs.ok h2 rfl
  exact ⟨congrArg LogEntry.command heq, congrArg LogEntry.term heq⟩

/-- Servers 0 and 1 both apply the first entry. -/
def applyRun : List (Action 3 Nat) :=
  commitRun ++ [.appendEntriesReply 0, .takeBatch 0, .sendCommand 0, .heartBeat 0, .replicate 0 1,
    .appendEntries 0 0, .takeBatch 1, .sendCommand 1]

/-- Two servers apply the same command. -/
theorem applyRun_safe :
    .apply 0 (.command (some 7) 1 1) ∈ (afterRun NoStaleSend applyRun).trace ∧
      .apply 1 (.command (some 7) 1 1) ∈ (afterRun NoStaleSend applyRun).trace ∧
      ∀ j command term, .apply j (.command command 1 term) ∈
        (afterRun NoStaleSend applyRun).trace → some 7 = command ∧ 1 = term := by
  have h0 : .apply 0 (.command (some 7) 1 1) ∈ (afterRun NoStaleSend applyRun).trace := by decide
  exact ⟨h0, by decide, fun j command term hj =>
    state_machine_safety (reach_reached applyRun) h0 hj⟩

/-- A run with a stale send. Server 0 leads term 1 and starts its replication goroutines; server 1
leads term 2 and appends 200; server 0 leads term 3, appends 300 and commits it with servers 2 and
3. A goroutine of term 1 then sends 300 and its commit to server 4, which is still in term 0, with
term
1. After that server 1, still leader of term 2, sends 200 to server 4, which overwrites 300 and
  applies 200. -/
def staleSendRun : List (Action 5 Nat) :=
  [ -- server 0 is elected in term 1 and starts its goroutines
    .electionTimeout 0, .requestVote 1, .requestVote 2, .requestVoteReply 1, .requestVoteReply 1,
    .heartBeat 0,
    -- server 1 is elected in term 2
    .electionTimeout 1, .electionTimeout 1, .requestVote 6, .requestVote 7, .requestVote 8,
    .requestVoteReply 7, .requestVoteReply 7, .start 1 (some 200) 0,
    -- server 0 is elected in term 3 and commits its entry
    .electionTimeout 0, .requestVote 9, .requestVote 10, .requestVoteReply 9, .requestVoteReply 9,
    .start 0 (some 300) 0, .replicate 0 5, .replicate 0 5, .appendEntries 0 0, .appendEntries 1 0,
    .appendEntriesReply 0, .appendEntriesReply 0, .takeBatch 0, .sendCommand 0,
    -- the goroutine of term 1 sends to server 4, then the leader of term 2 does
    .replicate 0 3, .appendEntries 0 0, .replicate 1 3, .appendEntries 1 0, .takeBatch 4,
    .sendCommand 4]

/-- Two servers apply different commands under the same index. -/
theorem staleSendRun_unsafe : ∃ c : Cluster 5 Nat, Reachable Always c ∧
    .apply 0 (.command (some 300) 1 3) ∈ c.trace ∧
    .apply 4 (.command (some 200) 1 2) ∈ c.trace :=
  ⟨afterRun Always staleSendRun, reach_reached staleSendRun, by decide +kernel, by decide +kernel⟩

/-! ## Log matching -/

/-- **Log matching**, in the runs in which no snapshot is installed over a log that conflicts with
it: terms do not decrease along a log, and two logs with an entry of the same index and term have
equal terms at every lower index that both hold. -/
theorem log_matching (hc : Reachable NoConflictInstall c) :
    (∀ i, (c.servers i).raft.log.Pairwise fun a b => a.term ≤ b.term) ∧
    ∀ i j, ∀ e ∈ (c.servers i).raft.log, ∀ e' ∈ (c.servers j).raft.log,
      e.index = e'.index → e.term = e'.term →
      ∀ f ∈ (c.servers i).raft.log, ∀ f' ∈ (c.servers j).raft.log,
        f.index = f'.index → f.index ≤ e.index → f.term = f'.term := by
  obtain ⟨H, hs⟩ := exists_sim (m := ⟨True, False⟩) (hc.mono fun _ _ h => ⟨.inl trivial, .inr h⟩)
  have hterm : ∀ i, ∀ e ∈ (c.servers i).raft.log, e.index ≤ (H.tip i).index ∧
      e.term = termAt (H.ledger (H.tip i).term) e.index := by
    intro i e he
    obtain ⟨hle, ht⟩ := (hs.raft i).log.term_eq (hs.ok.tip.tip i) hs.indexed
      ((hs.raft i).sentinel_ok.resolve_right fun h => h.1) he
    exact ⟨hle, ht.trans (termAt_pathTo hle)⟩
  have hlen := fun i => (hs.ok.tip.tip i).1
  constructor
  · intro i
    refine ((hs.raft i).log.pairwise_index hs.indexed).imp_of_mem fun {a b} ha hb hab => ?_
    obtain ⟨_, hta⟩ := hterm i a ha
    obtain ⟨hb', htb⟩ := hterm i b hb
    rw [hta, htb]
    exact hs.ok.ledger.mono _ _ _ (Nat.le_of_lt hab) (Nat.le_trans hb' (hlen i))
  · intro i j e he e' he' hi ht f hf f' hf' hfi hle
    obtain ⟨h1, h2⟩ := hterm i e he
    obtain ⟨h3, h4⟩ := hterm j e' he'
    rw [← hi] at h3 h4
    have htake := hs.ok.ledger.take_eq_of_termAt_eq (Nat.le_trans h1 (hlen i))
      (Nat.le_trans h3 (hlen j)) (by rw [← h2, ← h4, ht])
    rw [(hterm i f hf).2, (hterm j f' hf').2, ← hfi]
    exact termAt_congr htake hle

/-- Server 0 appends two entries in term 1 that it does not send. Server 1 is elected in term 2,
commits one entry, applies it and takes a snapshot. -/
def snapshotRun : List (Action 3 Nat) :=
  [.electionTimeout 0, .requestVote 0, .requestVoteReply 0, .start 0 (some 7) 0,
    .start 0 (some 8) 0,
    .electionTimeout 1, .requestVote 2, .requestVoteReply 2, .start 1 (some 9) 0, .replicate 1 1,
    .appendEntries 0 0, .appendEntriesReply 0, .takeBatch 1, .sendCommand 1, .snapshot 1 1 [42] 0]

/-- A server that got a snapshot has a log that matches that of another one. -/
theorem snapshotRun_matching :
    ⟨none, 2, 1⟩ ∈ ((afterRun NoConflictInstall snapshotRun).servers 1).raft.log ∧
      ⟨some 9, 2, 1⟩ ∈ ((afterRun NoConflictInstall snapshotRun).servers 2).raft.log ∧
      ∀ f ∈ ((afterRun NoConflictInstall snapshotRun).servers 1).raft.log,
        ∀ f' ∈ ((afterRun NoConflictInstall snapshotRun).servers 2).raft.log,
          f.index = f'.index → f.index ≤ 1 → f.term = f'.term := by
  have h1 : ⟨none, 2, 1⟩ ∈ ((afterRun NoConflictInstall snapshotRun).servers 1).raft.log := by
    decide
  have h2 : ⟨some 9, 2, 1⟩ ∈ ((afterRun NoConflictInstall snapshotRun).servers 2).raft.log := by
    decide
  exact ⟨h1, h2, (log_matching (reach_reached snapshotRun)).2 1 2 _ h1 _ h2 rfl rfl⟩

/-- After `snapshotRun`, server 1 sends its snapshot to server 0, which keeps the second of its own
entries although its first one conflicts with the snapshot. -/
theorem conflictInstall_unmatched : ∃ c : Cluster 3 Nat, Reachable Always c ∧
    (c.servers 0).raft.log = [⟨none, 2, 1⟩, ⟨some 8, 1, 2⟩] ∧
    ¬ (c.servers 0).raft.log.Pairwise fun a b => a.term ≤ b.term :=
  ⟨afterRun Always (snapshotRun ++ [.replicate 1 0, .installSnapshot 0 0]), reach_reached _,
    by decide +kernel, by decide +kernel⟩

end DistLabs
