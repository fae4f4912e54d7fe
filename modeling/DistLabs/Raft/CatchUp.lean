import DistLabs.Raft.Exchange
import DistLabs.Raft.Safety

/-!
# Catching up in a cluster

Exchanges are runs of the cluster (`exchanges_lead`). In the runs without stale sends and
conflicting snapshots every leader and every live server that is not in a later term are a `Pair`,
so that the server catches up exactly when the leader does not resume below its snapshot
(`replication_catches_up`); `stuckRun` leads to a leader that does.
-/

namespace DistLabs

open Lib Chronicle

variable {n : Nat} {α : Type} {H : Chron n α} {c : Cluster n α} {t : Nat} {l s : Fin n}

/-! ## Exchanges as runs of the cluster -/

/-- The cluster can go from `c` to `c'`, where servers `l` and `s` have these `Raft` values and the
other servers are as before. -/
def Leads (l s : Fin n) (c c' : Cluster n α) (leader' follower' : Raft n α) : Prop :=
  Reach Cluster.step Always c c' ∧ (c'.servers l).raft = leader' ∧
    (c'.servers s).raft = follower' ∧
    ∀ i, i ≠ l → i ≠ s → c'.servers i = c.servers i

theorem Leads.refl (l s : Fin n) (c : Cluster n α) :
    Leads l s c c (c.servers l).raft (c.servers s).raft := ⟨.init, rfl, rfl, fun _ _ _ => rfl⟩

/-- Steps of the leader and the follower, and then such a run. -/
theorem Leads.of_reach {c₁ c' : Cluster n α} {leader' follower' : Raft n α}
    (h : Leads l s c₁ c' leader' follower') (hreach : Reach Cluster.step Always c c₁)
    (hother : ∀ i, i ≠ l → i ≠ s → c₁.servers i = c.servers i) :
    Leads l s c c' leader' follower' :=
  ⟨hreach.trans h.1, h.2.1, h.2.2.1, fun i hil his =>
    (h.2.2.2 i hil his).trans (hother i hil his)⟩

/-- A leader's heartbeat starts a goroutine for every other server. -/
theorem mem_runHeartBeats {sv : Server n α} (hl : sv.raft.state = .leader) (hne : s ≠ l) :
    ⟨s, sv.raft.currentTerm⟩ ∈ (sv.runHeartBeats l).replicators := by
  rw [Server.runHeartBeats, if_pos hl]
  refine List.mem_append_right _ (List.mem_map.2 ⟨s, ?_, rfl⟩)
  simp [hne]

theorem getElem?_set_last {β : Type} (as : List β) (x y : β) :
    ((as ++ [x]).set as.length y)[as.length]? = some y := by simp

section
variable (hne : s ≠ l)
include hne

/-- The second half of an exchange: `AppendEntries` and the handler of its reply. -/
theorem leads_of_append {as : List (AppendCall n α)} {args : AppendEntriesArgs n α}
    {reply : AppendEntriesReply} {again : Bool} {assigned : List Nat} {g : Nat}
    {leader' follower' : Raft n α}
    (hcall : c.appends = as ++ [⟨l, (c.servers l).epoch, s, args, none⟩])
    (hr : (c.servers s).raft.appendEntries args g = some (follower', reply))
    (hh : (c.servers l).raft.handleAppendEntriesRPCResponse l s args reply =
      some (leader', again, assigned)) :
    ∃ c', Leads l s c c' leader' follower' := by
  have hk : c.appends[as.length]? = some ⟨l, (c.servers l).epoch, s, args, none⟩ := by
    rw [hcall, List.getElem?_concat_length]
  have h1 := Step.appendEntries hk hr rfl
  generalize hc₁ : ({ c.set s _ with appends := _ } : Cluster n α) = c₁ at h1
  have hl₁ : c₁.servers l = c.servers l := by
    rw [← hc₁]
    exact Function.update_of_ne hne.symm ..
  have hk₁ : c₁.appends[as.length]? = some ⟨l, (c.servers l).epoch, s, args, some reply⟩ := by
    rw [← hc₁, hcall]
    exact getElem?_set_last ..
  have h2 := Step.appendEntriesReply hk₁ rfl (by rw [hl₁]) (by rw [hl₁]; exact hh)
  refine ⟨_, (Reach.init.step trivial h1.step_eq).step trivial h2.step_eq, ?_, ?_, ?_⟩
  · simp [Cluster.log, Cluster.set]
  · simp [Cluster.log, Cluster.set, ← hc₁, hne]
  · intro i hil his
    simp [Cluster.log, Cluster.set, ← hc₁, hil, his]

/-- The handler of the reply to a snapshot. -/
theorem leads_of_snapReply {c₁ : Cluster n α} {k : Nat} {args : InstallSnapshotArgs n}
    {reply : InstallSnapshotReply} (hreach : Reach Cluster.step Always c c₁)
    (hl : c₁.servers l = c.servers l) (hother : ∀ i, i ≠ s → c₁.servers i = c.servers i)
    (hk : c₁.snaps[k]? = some ⟨l, (c.servers l).epoch, s, args, some reply⟩) :
    ∃ c', Leads l s c c'
      ((c.servers l).raft.handleInstallSnapshotRPCResponse s args reply) (c₁.servers s).raft := by
  have hst := Step.installSnapshotReply hk rfl (by rw [hl])
  refine ⟨_, hreach.step trivial hst.step_eq, ?_, ?_, ?_⟩
  · simp [Cluster.set, hl]
  · simp [Cluster.set, hne]
  · intro i hil his
    simp [Cluster.set, hil, hother i his]

/-- The second half of an exchange: `InstallSnapshot`, with its send on `applyChan` when it takes
the snapshot, and the handler of its reply. -/
theorem leads_of_snapshot {as : List (SnapCall n)} {args : InstallSnapshotArgs n}
    {reply : InstallSnapshotReply} {msg : Option (ApplyMsg α)} {g : Nat} {follower' : Raft n α}
    (hcall : c.snaps = as ++ [⟨l, (c.servers l).epoch, s, args, none⟩])
    (hr : (c.servers s).raft.installSnapshot args g = some (follower', reply, msg)) :
    ∃ c', Leads l s c c' ((c.servers l).raft.handleInstallSnapshotRPCResponse s args reply)
      follower' := by
  have hk : c.snaps[as.length]? = some ⟨l, (c.servers l).epoch, s, args, none⟩ := by
    rw [hcall, List.getElem?_concat_length]
  cases msg with
  | none =>
    have h1 := Step.installRefused hk hr rfl
    generalize hc₁ : (Cluster.log _ _ : Cluster n α) = c₁ at h1
    have hs₁ : (c₁.servers s).raft = follower' := by simp [← hc₁, Cluster.log, Cluster.set]
    rw [← hs₁]
    refine leads_of_snapReply hne (Reach.init.step trivial h1.step_eq) ?_ (fun i hi => ?_)
      (k := as.length) ?_
    · simp [← hc₁, Cluster.log, Cluster.set, hne.symm]
    · simp [← hc₁, Cluster.log, Cluster.set, hi]
    · rw [← hc₁]
      simp [Cluster.log, hcall]
  | some msg =>
    have h1 := Step.installSnapshot hk hr rfl
    generalize hc₁ : (Cluster.log _ _ : Cluster n α) = c₁ at h1
    have hk₁ : (c₁.servers s).installing[(c.servers s).installing.length]? =
        some ⟨⟨l, (c.servers l).epoch, s, args, some reply⟩, msg⟩ := by
      simp [← hc₁, Cluster.log, Cluster.set]
    have hsnaps : c₁.snaps = as := by
      simp [← hc₁, Cluster.log, hcall, List.eraseIdx_append_of_length_le]
    have h2 := Step.sendSnapshot hk₁
    generalize hc₂ : (Cluster.log _ _ : Cluster n α) = c₂ at h2
    have hs₂ : (c₂.servers s).raft = follower' := by
      simp [← hc₂, ← hc₁, Cluster.log, Cluster.set]
    rw [← hs₂]
    refine leads_of_snapReply hne ((Reach.init.step trivial h1.step_eq).step trivial h2.step_eq) ?_
      (fun i hi => ?_) (k := as.length) ?_
    · simp [← hc₂, ← hc₁, Cluster.log, Cluster.set, hne.symm]
    · simp [← hc₂, ← hc₁, Cluster.log, Cluster.set, hi]
    · rw [← hc₂]
      simp [Cluster.log, hsnaps]

/-- **An exchange is a run of the cluster** in which no other server takes a step. -/
theorem exchange_leads {g : Nat} {leader' follower' : Raft n α}
    (hex : exchange l s g (c.servers l).raft (c.servers s).raft = some (leader', follower')) :
    ∃ c', Leads l s c c' leader' follower' := by
  by_cases hl : (c.servers l).raft.state = .leader
  swap
  · rw [exchange, Raft.buildRequest, if_pos hl] at hex
    cases hex
    exact ⟨c, .refl l s c⟩
  -- a heartbeat starts the goroutine
  have h1 : Step c (.heartBeat l) _ := .heartBeat
  generalize hc₁ : c.set l ((c.servers l).runHeartBeats l) = c₁ at h1
  have hl₁ : c₁.servers l = (c.servers l).runHeartBeats l := by
    rw [← hc₁]
    exact Function.update_self ..
  have hraft₁ : (c₁.servers l).raft = (c.servers l).raft := by
    rw [hl₁]
    exact (runHeartBeats_raft ..).1
  have hother₁ : ∀ i, i ≠ l → c₁.servers i = c.servers i := fun i hi => by
    rw [← hc₁]
    exact Function.update_of_ne hi ..
  have hreach₁ : Reach Cluster.step Always c c₁ := .step .init trivial h1.step_eq
  obtain ⟨k, hk⟩ := List.getElem?_of_mem (mem_runHeartBeats hl hne)
  rw [← hl₁, ← hraft₁] at hk
  rw [← hraft₁, ← hother₁ s hne] at hex
  simp only [exchange, Option.bind_eq_bind, Option.bind_eq_some_iff] at hex
  obtain ⟨req, hb, hex⟩ := hex
  rcases req with _ | args | args
  · cases hex
    exact ⟨c₁, hreach₁, rfl, rfl, fun i hi _ => hother₁ i hi⟩
  · simp only [Option.bind_eq_some_iff, Prod.exists] at hex
    obtain ⟨_, reply, hr, _, again, assigned, hh, hex⟩ := hex
    cases hex
    have h2 := Step.replicateAppend hk hb
    generalize hc₂ : ({ c₁.set l _ with appends := _ } : Cluster n α) = c₂ at h2
    have hs₂ : c₂.servers s = c₁.servers s := by simp [← hc₂, Cluster.set, hne]
    have hl₂ : (c₂.servers l).raft = (c₁.servers l).raft := by simp [← hc₂, Cluster.set]
    have hcall : c₂.appends = c₁.appends ++ [⟨l, (c₂.servers l).epoch, s, args, none⟩] := by
      simp [← hc₂, Cluster.set]
    rw [← hs₂] at hr
    rw [← hl₂] at hh
    obtain ⟨c', hc'⟩ := leads_of_append hne hcall hr hh
    refine ⟨c', hc'.of_reach (hreach₁.step trivial h2.step_eq) fun i hi _ => ?_⟩
    simp [← hc₂, Cluster.set, hi, hother₁ i hi]
  · simp only [Option.bind_eq_some_iff, Prod.exists] at hex
    obtain ⟨_, reply, msg, hr, hex⟩ := hex
    cases hex
    have h2 := Step.replicateSnapshot hk hb
    generalize hc₂ : ({ c₁.set l _ with snaps := _ } : Cluster n α) = c₂ at h2
    have hs₂ : c₂.servers s = c₁.servers s := by simp [← hc₂, Cluster.set, hne]
    have hl₂ : (c₂.servers l).raft = (c₁.servers l).raft := by simp [← hc₂, Cluster.set]
    have hcall : c₂.snaps = c₁.snaps ++ [⟨l, (c₂.servers l).epoch, s, args, none⟩] := by
      simp [← hc₂, Cluster.set]
    rw [← hs₂] at hr
    obtain ⟨c', hc'⟩ := leads_of_snapshot hne hcall hr
    rw [hl₂] at hc'
    refine ⟨c', hc'.of_reach (hreach₁.step trivial h2.step_eq) fun i hi _ => ?_⟩
    simp [← hc₂, Cluster.set, hi, hother₁ i hi]

/-- So are any number of them. -/
theorem exchanges_lead {k : Nat} {grow : Nat → Nat} {leader' follower' : Raft n α}
    (hex : exchanges l s k grow (c.servers l).raft (c.servers s).raft =
      some (leader', follower')) :
    ∃ c', Leads l s c c' leader' follower' := by
  induction k generalizing c grow with
  | zero =>
    cases hex
    exact ⟨c, .refl l s c⟩
  | succ k ih =>
    rw [exchanges, Option.bind_eq_some_iff] at hex
    obtain ⟨⟨leader₁, follower₁⟩, h1, hex⟩ := hex
    obtain ⟨c₁, hreach, rfl, rfl, hother⟩ := exchange_leads hne h1
    obtain ⟨c', hc'⟩ := ih hex
    exact ⟨c', hc'.of_reach hreach hother⟩

end

/-! ## Runs -/

/-- No stale sends and no conflicting snapshots. -/
def Orderly (c : Cluster n α) (a : Action n α) : Prop := NoStaleSend c a ∧ NoConflictInstall c a

instance (c : Cluster n α) (a : Action n α) : Decidable (Orderly c a) :=
  inferInstanceAs (Decidable (_ ∧ _))

/-- What a server has committed is on the log of every leader that it can follow. -/
theorem agrees_commitIndex (hs : Sim .strict H c) (ht : Tracked H c) (helected : H.Elected t)
    (hcur : (c.servers s).raft.currentTerm ≤ t) :
    Agrees H (H.tip s) t (c.servers s).raft.commitIndex := by
  have hr := hs.raft s
  have htip := hs.ok.tip.tip s
  have hagreed := hr.agreed.resolve_left id
  rcases Nat.lt_or_eq_of_le hr.first_le_commit with hlt | heq
  · have htake := hr.agree hs.ok helected hcur hlt
    refine ⟨hagreed.le, length_of_take_eq htake ?_, htake⟩
    rw [htip.length_pathTo]
    exact hagreed.le
  -- nothing is committed above the snapshot, which was committed when it was taken
  rw [← heq]
  rcases ht.anchored s with h0 | ⟨T, k, hd, hk, hT, hterm⟩
  · rw [h0]
    exact ⟨Nat.zero_le _, Nat.zero_le _, by rw [List.take_zero, List.take_zero]⟩
  · obtain ⟨hlen, htake⟩ := hs.ok.done_le hd (Nat.le_trans hT hcur) helected
    have hlen' := Nat.le_trans hk hlen
    refine ⟨hr.log.le, hlen', take_eq_of_path hs.ok htip hr.log.le hlen' ?_⟩
    rw [← hr.clean, hterm, termAt_congr htake hk]

/-- A leader and a live server that is not in a later term. -/
theorem pair_of (hs : Sim .strict H c) (ht : Tracked H c)
    (hl : (c.servers l).raft.state = .leader) (halive : (c.servers s).raft.state ≠ .dead)
    (hcur : (c.servers s).raft.currentTerm ≤ (c.servers l).raft.currentTerm) :
    Pair H (H.cur l) (H.tip s) s (c.servers l).raft (c.servers s).raft := by
  have hrl := hs.raft l
  have hrs := hs.raft s
  have htip := hs.ok.tip.tip s
  have hlead := hrl.leader hl
  have helected := elected_of_leader hlead.leader
  rw [hrl.cur] at hcur
  have hag := agrees_commitIndex hs ht helected hcur
  have hfirst : (sentinel (c.servers s).raft.log).index ≤ (c.servers s).raft.commitIndex :=
    hrs.first_le_commit
  have hk := ht.leader l hl s
  refine ⟨⟨helected, hl, hrl.cur, ?_, hlead.clean, hrl.first_le_commit⟩,
    ⟨halive, hcur, htip, hrs.log, hrs.clean, hfirst, hag⟩, hk.next_le, ?_⟩
  · rw [← hlead.tip]
    exact hrl.log
  · rcases hk.holds with hlt | hle | ⟨_, hlen, e, he, hi, hterm⟩
    · exact absurd hcur (Nat.not_le.2 hlt)
    · have hle := Nat.le_trans hle hfirst
      exact ⟨Nat.le_trans hle hag.le_tip, hk.match_le, take_congr hag.take hle⟩
    · obtain ⟨hle, hpath⟩ := hrs.log.term_eq htip hs.indexed hrs.clean he
      rw [hi] at hle hpath
      exact ⟨hle, hlen, take_eq_of_path hs.ok htip hle hlen (hpath.symm.trans hterm)⟩

/-- **Catching up**, in the runs without stale sends and conflicting snapshots. -/
theorem replication_catches_up (hc : Reachable Orderly c) {l s : Fin n}
    (hl : (c.servers l).raft.state = .leader) (halive : (c.servers s).raft.state ≠ .dead)
    (hcur : (c.servers s).raft.currentTerm ≤ (c.servers l).raft.currentTerm) :
    CatchesUp l s (c.servers l).raft (c.servers s).raft ↔
      CanCatchUp s (c.servers l).raft (c.servers s).raft := by
  obtain ⟨H, hs, ht⟩ := exists_tracked (hc.mono fun _ _ h => ⟨.inr h.1, .inr h.2⟩)
  exact (pair_of hs ht hl halive hcur).catchesUp_iff hs.ok hs.indexed l

/-- The leader of `snapshotRun` brings server 0 up to date, which has conflicting entries. -/
theorem snapshotRun_catches_up :
    ((afterRun Orderly snapshotRun).servers 1).raft.state = .leader ∧
      ((afterRun Orderly snapshotRun).servers 0).raft.log =
        [.zero, ⟨some 7, 1, 1⟩, ⟨some 8, 1, 2⟩] ∧
      CatchesUp 1 0 ((afterRun Orderly snapshotRun).servers 1).raft
        ((afterRun Orderly snapshotRun).servers 0).raft := by
  have hl : ((afterRun Orderly snapshotRun).servers 1).raft.state = .leader := by decide
  exact ⟨hl, by decide, (replication_catches_up (reach_reached snapshotRun) hl (by decide)
    (by decide)).2 (.inr ⟨1, by decide, 0, by decide, by decide⟩)⟩

/-- Server 0 replicates an entry to server 1, commits it with server 2 and tells server 1, but
every reply of server 1 is lost. Server 1 applies the entry and takes a snapshot. -/
def stuckRun : List (Action 3 Nat) :=
  [.electionTimeout 0, .requestVote 0, .requestVoteReply 0, .start 0 (some 7) 0,
    .replicate 0 0, .appendEntries 0 0, .loseAppend 0,
    .replicate 0 0, .appendEntries 0 0, .appendEntriesReply 0,
    .heartBeat 0, .replicate 0 0, .appendEntries 0 0, .loseAppend 0,
    .takeBatch 1, .sendCommand 1, .snapshot 1 1 [42] 0]

/-- The leader's next request starts at index 0, below the snapshot of server 1, and so does every
later one. -/
theorem stuckRun_stalls : ∃ c : Cluster 3 Nat, Reachable Always c ∧
    (c.servers 0).raft.state = .leader ∧ (c.servers 1).raft.state = .follower ∧
    (c.servers 1).raft.currentTerm = (c.servers 0).raft.currentTerm ∧
    (∀ g, exchange 0 1 g (c.servers 0).raft (c.servers 1).raft =
      some ((c.servers 0).raft, (c.servers 1).raft)) ∧
    ¬ CatchesUp 0 1 (c.servers 0).raft (c.servers 1).raft := by
  have hfix : ∀ g, exchange 0 1 g ((afterRun Always stuckRun).servers 0).raft
      ((afterRun Always stuckRun).servers 1).raft =
        some (((afterRun Always stuckRun).servers 0).raft,
          ((afterRun Always stuckRun).servers 1).raft) := fun _ => rfl
  refine ⟨afterRun Always stuckRun, reach_reached stuckRun, by decide, by decide, by decide, hfix,
    not_catchesUp_of_fixed (fun hc => ?_) hfix⟩
  have hlast : ((afterRun Always stuckRun).servers 0).raft.getLastIndex ≠
    some (((afterRun Always stuckRun).servers 0).raft.matchIndex 1) := by decide
  exact hlast hc.1

end DistLabs
