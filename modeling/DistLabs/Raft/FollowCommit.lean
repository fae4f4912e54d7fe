import DistLabs.Raft.Contiguous
import DistLabs.Raft.Local
import DistLabs.Raft.Safety

/-!
# A follower commits what the sender had

`AppendEntries` bounds the new `commitIndex` by the follower's last index, not by the last entry of
the request. That is enough, since a request runs to the end of the sender's log and its
`LeaderCommit` was read together with it. `BuiltIn` ties a request to the state of the run in which
it was built.

The follower's sentinel needs an argument of its own: after `InstallSnapshot` it need not lie on
the rest of the follower's log. It was committed then, and so was what `LeaderCommit` covers, so
the two agree on it.
-/

namespace DistLabs

open Lib Chronicle

variable {n : Nat} {α : Type} {m : Mode} {H : Chron n α} {c c' c₀ : Cluster n α} {i : Fin n}
  {rf rf' : Raft n α}

/-- A replication goroutine built the request of `call` in the state `c₀`, on a run that went on to
`c`. -/
def BuiltIn (c₀ : Cluster n α) (call : AppendCall n α) (c : Cluster n α) : Prop :=
  Reachable Always c₀ ∧ ∃ k c₁, c₀.step (.replicate call.caller k) = some c₁ ∧
    c₁.appends = c₀.appends ++ [call] ∧ Reach Cluster.step Always c₁ c

/-- Every request in flight was built. -/
theorem exists_builtIn (hc : Reachable Always c) {call : AppendCall n α}
    (hcall : call ∈ c.appends) :
    ∃ c₀, BuiltIn c₀ { call with reply := none } c := by
  induction hc generalizing call with
  | init => cases hcall
  | step hc hok hst ih =>
    have hlater : ∀ {call : AppendCall n α}, (∃ c₀, BuiltIn c₀ call _) → ∃ c₀, BuiltIn c₀ call _ :=
      fun ⟨c₀, hc₀, k, c₁, h1, h2, h3⟩ => ⟨c₀, hc₀, k, c₁, h1, h2, h3.step hok hst⟩
    cases (step_cases hst).append_origin hcall with
    | old hold => exact hlater (ih hold)
    | answered hold =>
      have hbuilt := ih hold
      exact hlater hbuilt
    | built hk hb =>
      rw [(Step.replicateAppend hk hb).step_eq] at hst
      cases hst
      exact ⟨_, hc, _, _, (Step.replicateAppend hk hb).step_eq, rfl, .init⟩

/-- The sender's log when the request was built is that of the term it led, and the request carries
a slice of it; both are still on record in `c`. -/
theorem BuiltIn.sender {call : AppendCall n α} (h : BuiltIn c₀ call c) :
    ∃ H V j, Sim .any H c ∧ AppendArgsOK .any H call.caller call.args V j ∧
      ∀ index t, (c₀.servers call.caller).raft.getTerm index = some t →
        t = termAt (H.ledger V) index := by
  obtain ⟨hc₀, k, c₁, hst, happ, hrun⟩ := h
  obtain ⟨H₀, hs₀⟩ := exists_sim_any hc₀
  obtain ⟨H₁, e₁, hs₁⟩ := sim_step hs₀ any_admits hst
  obtain ⟨H, e, hs⟩ := sim_run hs₁ (hrun.mono fun _ _ _ => any_admits)
  have e₀ := e₁.trans e
  have hst := step_cases hst
  generalize hcaller : call.caller = l at hst
  cases hst with
  | replicateIdle | replicateSnapshot => simp [Cluster.set] at happ
  | @replicateAppend _ _ r args hk hb =>
    obtain rfl := List.singleton_inj.1 (List.append_cancel_left happ)
    have hraft := hs₀.raft l
    have hstate : (c₀.servers l).raft.state = .leader := by
      rw [Raft.buildRequest] at hb
      split at hb
      · cases hb
      · next hst => exact not_not.1 hst
    have hlead := hraft.leader hstate
    obtain ⟨j, ha⟩ := buildRequest_ok hs₀.ok hs₀.indexed hraft
      ((hs₀.goroutines l).replicators r (List.mem_of_getElem? hk)) (.inl trivial) hb
    refine ⟨H, H₀.cur l, j, hs, ha.mono e₀, fun index t ht => ?_⟩
    have hcont := hraft.log.contiguous hs₀.indexed
    rw [hcont.getTerm, Option.map_eq_some_iff] at ht
    obtain ⟨x, hx, rfl⟩ := ht
    obtain ⟨hle, heq⟩ := (hlead.leaderLog hs₀.ok hraft.log).term_eq hs₀.indexed
      (List.mem_of_getElem? (window_eq_some_iff.1 hx).2)
    rw [hcont.index_of_entryAt hx] at hle heq
    rw [heq, e₀.termAt hle]

/-! ## The follower -/

/-- The sentinel of a follower that takes a request lies on the sender's log, if the sender knew of
commits past it. -/
theorem SentinelOK.on_sender (hok : H.OK) {s : LogEntry α} (h : SentinelOK m H i s)
    {V j k lc : Nat} (hV : H.Elected V) (o : Overlap H (H.tip i) s V j k) (hknown : Known H V lc)
    (hlt : s.index < lc) : s.term = termAt (H.ledger V) s.index := by
  rcases h with hpath | ⟨_, T, d, hd, hle, hterm, _⟩
  · rcases Nat.lt_or_eq_of_le o.first_le with hk | hk
    · rw [hpath]
      exact termAt_congr (o.agree hk) (Nat.le_of_lt hk)
    · rw [o.first hk.symm, hk]
  · rcases hknown with h0 | ⟨T', d', hd', hle', hT'⟩
    · omega
    rw [hterm, termAt_congr (hok.done_agree hd hd' hle (by omega)) (Nat.le_refl _)]
    exact (termAt_congr (hok.done_le hd' hT' hV).2 (by omega)).symm

/-- `AppendEntries` raises `commitIndex` only over entries of the log that the request is a slice
of. -/
theorem appendEntries_agrees (hok : H.OK) (hidx : Indexed H) (h : RaftOK m H i rf) {l : Fin n}
    {args : AppendEntriesArgs n α} {V j g : Nat} (ha : AppendArgsOK m H l args V j)
    {reply : AppendEntriesReply} (hr : rf.appendEntries args g = some (rf', reply))
    (hraise : rf.commitIndex < rf'.commitIndex) {index t : Nat} (hi : index ≤ rf'.commitIndex)
    (ht : rf'.getTerm index = some t) : t = termAt (H.ledger V) index := by
  have htip := hok.tip.tip i
  have hV : H.Elected V := elected_of_leader ha.sender
  obtain ⟨_, _, hr', hcase⟩ := (h.log.contiguous hidx).exists_appendEntries args g
  rw [hr] at hr'
  cases hr'
  rcases hcase with ⟨_, rfl, _⟩ | ⟨_, _, _, hrec⟩
  · exact absurd hraise (Nat.lt_irrefl _)
  have hlog : (rf.stepDown args.term).toFollower.log = rf.log := stepDown_log ..
  have h₁ : LogOK H (H.tip i) (rf.stepDown args.term).toFollower.log := by
    rw [hlog]
    exact h.log
  have hci : (rf.stepDown args.term).toFollower.commitIndex = rf.commitIndex :=
    stepDown_commitIndex ..
  cases hrec with
  | below | short | conflict => omega
  | stored hterm hskip hs =>
    have hst := hs.stored hok hidx h₁ htip ha.slice hterm hskip
    have hcommit : rf'.commitIndex ≤ args.leaderCommit := by
      rcases hs.commit with heq | hle
      · omega
      · exact hle
    have hij : index ≤ j := Nat.le_trans hi (Nat.le_trans hcommit ha.commit_le)
    have hsent := hst.sentinel_eq
    rw [hlog] at hsent
    have hfirst : (sentinel rf.log).index < args.leaderCommit := by
      have h1 := h.first_le
      have h2 := h.applied_le
      omega
    obtain ⟨k, o⟩ : ∃ k, Overlap H (H.tip i) (sentinel rf.log) V j k := by
      rcases hst.log with ⟨_, o⟩ | ⟨_, k, _, o⟩
      · exact ⟨j, by rw [← hlog]; exact o⟩
      · exact ⟨k, by rw [← hlog]; exact o⟩
    have hsen := h.sentinel_ok.on_sender hok hV o ha.known hfirst
    rcases hst.log with ⟨hlog', o'⟩ | ⟨hlog', _⟩
    · have h₂ : LogOK H (H.tip i) rf'.log := by
        rw [hlog']
        exact h₁
      rcases h₂.getTerm_cases htip ht with ⟨rfl, rfl⟩ | ⟨hgt, _, rfl⟩
      · rw [hsent]
        exact hsen
      · rw [hlog', hlog] at hgt
        rw [hlog] at o'
        exact termAt_congr (o'.agree (by omega)) hij
    · rcases hlog'.getTerm_cases (hok.ledger.validPos_posAt ha.le) ht with ⟨rfl, rfl⟩ | ⟨_, _, rfl⟩
      · rw [hsent]
        exact hsen
      · rw [show H.path (posAt (H.ledger V) j) = (H.ledger V).take j from
          hok.ledger.pathTo_posAt ha.le, termAt_take hij]

/-- **A follower commits only what the sender had.** The `LeaderCommit` of a request in flight is
at most its last index. Every request in flight was built in some state of the run; and when the
handler raises the follower's `commitIndex`, then up to there its log has the terms that the
sender's log had in any state in which the request was built, wherever both have an entry. -/
theorem follower_commits_what_sender_had (hc : Reachable Always c) :
    (∀ call ∈ c.appends, call.args.leaderCommit ≤
      call.args.prevLogIndex + call.args.entries.length) ∧
    ∀ k g call, c.appends[k]? = some call → c.step (.appendEntries k g) = some c' →
      (∃ c₀, BuiltIn c₀ call c) ∧
      ∀ c₀, BuiltIn c₀ call c →
        (c.servers call.callee).raft.commitIndex < (c'.servers call.callee).raft.commitIndex →
        ∀ index, index ≤ (c'.servers call.callee).raft.commitIndex →
          ∀ t t', (c'.servers call.callee).raft.getTerm index = some t →
            (c₀.servers call.caller).raft.getTerm index = some t' → t = t' := by
  refine ⟨fun call hcall => ?_, fun k g call hk hst => ?_⟩
  · obtain ⟨H, hs⟩ := exists_sim_any hc
    obtain ⟨V, j, ha, _⟩ := hs.appends call hcall
    rw [ha.slice.length]
    exact ha.commit_le
  cases step_cases hst with
  | appendEntries hk' h hr =>
    rw [hk] at hk'
    cases hk'
    constructor
    · obtain ⟨c₀, hb⟩ := exists_builtIn hc (List.mem_of_getElem? hk)
      exact ⟨c₀, by rw [← hr] at hb; exact hb⟩
    · intro c₀ hb hraise index hi t t' ht ht'
      obtain ⟨H, V, j, hs, ha, hsender⟩ := hb.sender
      simp only [Cluster.set, Function.update_self] at hraise hi ht
      rw [hsender index t' ht']
      exact appendEntries_agrees hs.ok hs.indexed (hs.raft call.callee) ha h hraise hi ht

/-- After `commitRun` the leader commits the entry and tells server 1 so. -/
def followRun : List (Action 3 Nat) :=
  commitRun ++ [.appendEntriesReply 0, .heartBeat 0, .replicate 0 1]

/-- A follower that learns of a commit by a heartbeat has the committed entry. -/
theorem followRun_agrees :
    ((afterRun Always followRun).servers 1).raft.commitIndex = 0 ∧
      ((afterRun Always (followRun ++ [.appendEntries 0 0])).servers 1).raft.commitIndex = 1 ∧
      ∃ c₀, BuiltIn c₀ ⟨0, 0, 1, ⟨1, 0, 1, 1, [], 1⟩, none⟩ (afterRun Always followRun) ∧
        ∀ t t', ((afterRun Always (followRun ++ [.appendEntries 0 0])).servers 1).raft.getTerm 1 =
          some t → (c₀.servers 0).raft.getTerm 1 = some t' → t = t' := by
  have hk : (afterRun Always followRun).appends[0]? =
      some ⟨0, 0, 1, ⟨1, 0, 1, 1, [], 1⟩, none⟩ := rfl
  have hst : (afterRun Always followRun).step (.appendEntries 0 0) =
      some (afterRun Always (followRun ++ [.appendEntries 0 0])) := rfl
  obtain ⟨⟨c₀, hb⟩, hall⟩ :=
    (follower_commits_what_sender_had (reach_reached followRun)).2 0 0 _ hk hst
  exact ⟨by decide, by decide, c₀, hb, hall c₀ hb (by decide) 1 (by decide)⟩

end DistLabs
