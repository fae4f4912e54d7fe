import DistLabs.Raft.Snapshots
import DistLabs.Raft.Steps

/-!
# Every run of a cluster is a run of the abstract protocol

`sim_step`: every step that the mode admits from a cluster that fits a chronicle leads to a cluster
that fits an extension of it. `exists_sim`: so every reachable cluster fits a chronicle.
-/

namespace DistLabs

open Lib Chronicle

variable {n : Nat} {α : Type} {m : Mode} {H H' : Chron n α} {c c' : Cluster n α} {p : Fin n}
  {s' : Server n α}

/-! ## A step of one server -/

/-- What is in a list after an element was added to it. -/
theorem mem_or_of_mem_append {β : Type} {P : β → Prop} {l : List β} {b : β} (hb : P b) :
    ∀ x ∈ l ++ [b], x ∈ l ∨ P x := by
  intro x hx
  rcases List.mem_append.1 hx with hx | hx
  · exact .inl hx
  · rw [List.mem_singleton.1 hx]
    exact .inr hb

/-- The goroutines of a server whose `Raft` value changed. -/
theorem GoroutinesOK.withRaft {s : Server n α} (h : GoroutinesOK m H p s) (e : Ext H H')
    {rf : Raft n α} {v : Nat} (hle : s.raft.lastApplied ≤ rf.lastApplied) :
    GoroutinesOK m H' p { s with raft := rf, receivedVotes := v } :=
  have h := h.mono e
  { replicators := h.replicators
    applying := fun x hx => ⟨(h.applying x hx).1, Nat.le_trans (h.applying x hx).2 hle⟩
    installing := fun x hx =>
      ⟨(h.installing x hx).1, Nat.le_trans (h.installing x hx).2.1 hle, (h.installing x hx).2.2⟩
    delivered := fun x hx => Nat.le_trans (h.delivered x hx) hle }

/-- A snapshot stays accounted for. -/
theorem SnapshotOK.kept {tr tr' : List (Event n α)} {rf rf' : Raft n α} (h : SnapshotOK tr p rf)
    (htr : tr ⊆ tr') (hfirst : sentinel rf'.log = sentinel rf.log)
    (hsnap : rf'.persister.snapshot = rf.persister.snapshot) : SnapshotOK tr' p rf' := by
  rw [SnapshotOK, hfirst, hsnap]
  rw [SnapshotOK] at h
  split at h
  · rename_i h0
    rw [if_pos h0]
    exact h
  · rename_i h0
    rw [if_neg h0]
    exact h.imp (fun hm => htr hm) fun hm => htr hm

/-- The cluster after a step of server `p` that may send votes requests. -/
theorem Sim.update (hs : Sim m H c) (mv : Moves H H' p)
    (hserv : c'.servers = Function.update c.servers p s') (hr : RaftOK m H' p s'.raft)
    (hg : GoroutinesOK m H' p s') (hv : ∀ call ∈ c'.votes, VoteCallOK H' call)
    (hd : (c'.votes.map voteKey).Nodup) (hcount : CountOK H' c' p)
    (hfrom : ∀ key ∈ c'.votes.map voteKey, key.1 ≠ p → key ∈ c.votes.map voteKey)
    (ha : ∀ call ∈ c'.appends, call ∈ c.appends ∨ AppendCallOK m H' call)
    (hn : ∀ call ∈ c'.snaps, call ∈ c.snaps ∨ SnapCallOK H' call)
    (ht : ∀ ev ∈ c'.trace, ev ∈ c.trace ∨ EventOK m H' ev) (hsub : c.trace ⊆ c'.trace)
    (hsnap : SnapshotOK c'.trace p s'.raft) : Sim m H' c' := by
  have hself : c'.servers p = s' := by rw [hserv, Function.update_self]
  have hother : ∀ {i}, i ≠ p → c'.servers i = c.servers i := fun hi => by
    rw [hserv, Function.update_of_ne hi]
  exact
    { ok := mv.ok
      indexed := mv.indexed
      raft := fun i => by
        by_cases hi : i = p
        · subst hi
          rw [hself]
          exact hr
        · rw [hother hi]
          exact (hs.raft i).mono hs.ok mv.ext (mv.frame i hi)
      goroutines := fun i => by
        by_cases hi : i = p
        · subst hi
          rw [hself]
          exact hg
        · rw [hother hi]
          exact (hs.goroutines i).mono mv.ext
      votes := hv
      distinct := hd
      count := fun i => by
        by_cases hi : i = p
        · subst hi
          exact hcount
        · intro hc
          rw [hother hi] at hc ⊢
          obtain ⟨S, hcard, hS⟩ := hs.count i hc
          refine ⟨S, hcard, fun q hq => ?_⟩
          rw [(mv.frame i hi).cur]
          exact ⟨mv.ext.vote _ _ _ (hS q hq).1, fun hk => (hS q hq).2 (hfrom _ hk hi)⟩
      appends := fun call hc => (ha call hc).elim (fun h => (hs.appends call h).mono mv.ext) id
      snaps := fun call hc => (hn call hc).elim (fun h => (hs.snaps call h).mono mv.ext) id
      trace := fun ev hev => (ht ev hev).elim (fun h => (hs.trace ev h).mono mv.ext) id
      snapshots := fun i => by
        by_cases hi : i = p
        · subst hi
          rw [hself]
          exact hsnap
        · rw [hother hi]
          exact (hs.snapshots i).kept hsub rfl rfl }

/-- The count of a candidate that sent no new requests. -/
theorem CountOK.kept (h : CountOK H c p) (e : Ext H H') (hself : c'.servers p = s')
    (hvotes : c'.votes.Sublist c.votes)
    (hcand : s'.raft.state = .candidate → (c.servers p).raft.state = .candidate ∧
      H'.cur p = H.cur p ∧ s'.epoch = (c.servers p).epoch ∧
      s'.receivedVotes = (c.servers p).receivedVotes) : CountOK H' c' p := by
  intro hc
  rw [hself] at hc ⊢
  obtain ⟨h1, h2, h3, h4⟩ := hcand hc
  obtain ⟨S, hcard, hS⟩ := h h1
  refine ⟨S, by rw [h4]; exact hcard, fun q hq => ?_⟩
  rw [h2, h3]
  exact ⟨e.vote _ _ _ (hS q hq).1, fun hk => (hS q hq).2 ((hvotes.map voteKey).subset hk)⟩

/-- The cluster after a step of server `p` that sends no vote requests. -/
theorem Sim.update' (hs : Sim m H c) (mv : Moves H H' p)
    (hserv : c'.servers = Function.update c.servers p s') (hr : RaftOK m H' p s'.raft)
    (hg : GoroutinesOK m H' p s') (hvotes : c'.votes.Sublist c.votes)
    (hcand : s'.raft.state = .candidate → (c.servers p).raft.state = .candidate ∧
      H'.cur p = H.cur p ∧ s'.epoch = (c.servers p).epoch ∧
      s'.receivedVotes = (c.servers p).receivedVotes)
    (ha : ∀ call ∈ c'.appends, call ∈ c.appends ∨ AppendCallOK m H' call)
    (hn : ∀ call ∈ c'.snaps, call ∈ c.snaps ∨ SnapCallOK H' call)
    (ht : ∀ ev ∈ c'.trace, ev ∈ c.trace ∨ EventOK m H' ev) (hsub : c.trace ⊆ c'.trace)
    (hsnap : SnapshotOK c'.trace p s'.raft) : Sim m H' c' :=
  hs.update mv hserv hr hg (fun call hc => (hs.votes call (hvotes.subset hc)).mono mv.ext)
    ((hvotes.map voteKey).nodup hs.distinct)
    ((hs.count p).kept mv.ext (by rw [hserv, Function.update_self]) hvotes hcand)
    (fun key hk _ => (hvotes.map voteKey).subset hk) ha hn ht hsub hsnap

/-- A step that changes nothing but the calls in flight. -/
theorem Sim.lose (hs : Sim m H c) (hserv : c'.servers = c.servers)
    (hvotes : c'.votes.Sublist c.votes) (ha : c'.appends ⊆ c.appends) (hn : c'.snaps ⊆ c.snaps)
    (ht : c'.trace = c.trace) : Sim m H c' where
  ok := hs.ok
  indexed := hs.indexed
  raft := by rw [hserv]; exact hs.raft
  goroutines := by rw [hserv]; exact hs.goroutines
  votes := fun call hc => hs.votes call (hvotes.subset hc)
  distinct := (hvotes.map voteKey).nodup hs.distinct
  count := fun i => (hs.count i).kept (Ext.refl H) (by rw [hserv]) hvotes
    fun hc => ⟨hc, rfl, rfl, rfl⟩
  appends := fun call hc => hs.appends call (ha hc)
  snaps := fun call hc => hs.snaps call (hn hc)
  trace := by rw [ht]; exact hs.trace
  snapshots := by rw [hserv, ht]; exact hs.snapshots

/-! ## Elections -/

/-- A server stands for election. -/
theorem sim_electionTimeout (hs : Sim m H c) {i : Fin n}
    (hst : Step c (.electionTimeout i) c') : ∃ H', Ext H H' ∧ Sim m H' c' := by
  obtain ⟨hel⟩ := hst
  obtain ⟨hr, hkept, hcand, rfl⟩ := startElection_ok hs.ok hs.indexed (hs.raft i) hel
  have mv : Moves H (H.stand i) i := .stand hs.ok hs.indexed
  have hcur : (H.stand i).cur i = H.cur i + 1 := Function.update_self ..
  -- requests of earlier elections have a smaller term
  have hold : ∀ key ∈ c.votes.map voteKey, key.1 = i → key.2.2.1 ≤ H.cur i := by
    intro key hk hki
    obtain ⟨call, hc, rfl⟩ := List.mem_map.1 hk
    obtain ⟨k, hreq⟩ := (hs.votes call hc).req
    have hcaller : call.caller = i := hki
    rw [hcaller] at hreq
    exact hs.ok.vote.req_le i call.args.term (by rw [hreq]; simp)
  have hnew : ∀ key, key ∈ (((List.finRange n).filter (· ≠ i)).map fun j =>
      (⟨i, (c.servers i).epoch, j, ⟨H.cur i + 1, i, (H.tip i).index, (H.tip i).term⟩, none⟩ :
        VoteCall n)).map voteKey →
      ∃ j, j ≠ i ∧ key = (i, (c.servers i).epoch, H.cur i + 1, j) := by
    intro key hk
    simp only [List.map_map, List.mem_map, List.mem_filter, decide_eq_true_eq] at hk
    obtain ⟨j, ⟨_, hj⟩, rfl⟩ := hk
    exact ⟨j, hj, rfl⟩
  refine ⟨H.stand i, mv.ext, hs.update mv rfl hr
    ((hs.goroutines i).withRaft mv.ext (Nat.le_of_eq hkept.lastApplied.symm)) ?_ ?_ ?_ ?_
    (fun _ h => .inl h) (fun _ h => .inl h) (fun _ h => .inl h) (List.Subset.refl _)
    ((hs.snapshots i).kept (List.Subset.refl _) hkept.first hkept.snapshot)⟩
  · intro call hc
    rcases List.mem_append.1 hc with hc | hc
    · exact (hs.votes call hc).mono mv.ext
    · obtain ⟨j, _, rfl⟩ := List.mem_map.1 hc
      exact ⟨rfl, ⟨H.hor i, update₂_self ..⟩, nofun⟩
  · rw [List.map_append]
    refine List.Nodup.append hs.distinct ?_ ?_
    · rw [List.map_map]
      refine List.Nodup.map (fun a b hab => ?_) ((List.nodup_finRange n).filter _)
      exact congrArg (·.2.2.2) hab
    · intro key hk hk'
      obtain ⟨j, _, rfl⟩ := hnew key hk'
      exact absurd (hold _ hk rfl) (Nat.not_succ_le_self _)
  · intro _
    refine ⟨{i}, by simp [Cluster.set], fun q hq => ?_⟩
    rw [Finset.mem_singleton] at hq
    subst hq
    rw [hcur]
    refine ⟨update₂_self .., fun hk => ?_⟩
    rw [List.map_append] at hk
    rcases List.mem_append.1 hk with hk | hk
    · exact absurd (hold _ hk rfl) (Nat.not_succ_le_self _)
    · obtain ⟨j, hj, heq⟩ := hnew _ hk
      exact hj (congrArg (·.2.2.2) heq).symm
  · intro key hk hne
    rw [List.map_append] at hk
    rcases List.mem_append.1 hk with hk | hk
    · exact hk
    · obtain ⟨j, _, rfl⟩ := hnew key hk
      exact absurd rfl hne

/-- Filling in a reply does not change the election a request belongs to. -/
theorem map_voteKey_set {votes : List (VoteCall n)} {k : Nat} {call : VoteCall n}
    (hk : votes[k]? = some call) (r : RequestVoteReply) :
    (votes.set k { call with reply := some r }).map voteKey = votes.map voteKey := by
  rw [List.map_set]
  refine List.ext_getElem? fun j => ?_
  rw [List.getElem?_set]
  split
  · rename_i hkj
    subst hkj
    rw [List.getElem?_map, hk]
    have := (List.getElem?_eq_some_iff.1 hk).1
    rw [if_pos (by rw [List.length_map]; exact this)]
    rfl
  · rfl

/-- A server handles a request for its vote. -/
theorem sim_requestVote (hs : Sim m H c) {k : Nat} (hst : Step c (.requestVote k) c') :
    ∃ H', Ext H H' ∧ Sim m H' c' := by
  cases hst with
  | @requestVote _ call rf reply hk hrv =>
    have hmem := List.mem_of_getElem? hk
    have hcall := hs.votes call hmem
    obtain ⟨z, hreq⟩ := hcall.req
    obtain ⟨H', mv, hr, hkept, hcand, hgrant⟩ := requestVote_ok hs.ok hs.indexed
      (hs.raft call.callee) (by rw [hcall.candidateId]; exact hreq) hrv
    have hkeys := map_voteKey_set hk reply
    refine ⟨H', mv.ext, hs.update mv rfl hr
      ((hs.goroutines _).withRaft mv.ext (Nat.le_of_eq hkept.lastApplied.symm)) ?_ ?_ ?_ ?_
      (fun _ h => .inl h) (fun _ h => .inl h) (fun _ h => .inl h) (List.Subset.refl _)
      ((hs.snapshots _).kept (List.Subset.refl _) hkept.first hkept.snapshot)⟩
    · intro call' hc
      rcases List.mem_or_eq_of_mem_set hc with hc | rfl
      · exact (hs.votes call' hc).mono mv.ext
      · refine { hcall.mono mv.ext with granted := fun r hrr hg => ?_ }
        cases hrr
        rw [← hcall.candidateId]
        exact hgrant hg
    · show (_ : List _).Nodup
      rw [hkeys]
      exact hs.distinct
    · intro hc
      simp only [Cluster.set, Function.update_self] at hc ⊢
      obtain ⟨h1, h2⟩ := hcand hc
      obtain ⟨S, hcard, hS⟩ := hs.count _ h1
      refine ⟨S, hcard, fun q hq => ?_⟩
      rw [h2, hkeys]
      exact ⟨mv.ext.vote _ _ _ (hS q hq).1, (hS q hq).2⟩
    · intro key hkey _
      rw [← hkeys]
      exact hkey

/-- The election is decided by a majority of distinct voters. -/
theorem CountOK.quorum {i : Fin n} (h : CountOK H c i)
    (hc : (c.servers i).raft.state = .candidate) {q : Fin n}
    (hq : H.vote q (H.cur i) = some i)
    (hkey : (i, (c.servers i).epoch, H.cur i, q) ∈ c.votes.map voteKey) :
    ∃ S : Finset (Fin n), S.card = (c.servers i).receivedVotes + 1 ∧
      (∀ r ∈ S, H.vote r (H.cur i) = some i) ∧
      ∀ r ∈ S, r = q ∨ (i, (c.servers i).epoch, H.cur i, r) ∉ c.votes.map voteKey := by
  obtain ⟨S, hcard, hS⟩ := h hc
  have hnot : q ∉ S := fun hmem => (hS q hmem).2 hkey
  refine ⟨insert q S, by rw [Finset.card_insert_of_notMem hnot, hcard], fun r hr => ?_,
    fun r hr => ?_⟩
  · rcases Finset.mem_insert.1 hr with rfl | hr
    · exact hq
    · exact (hS r hr).1
  · rcases Finset.mem_insert.1 hr with rfl | hr
    · exact .inl rfl
    · exact .inr (hS r hr).2

/-- A request that was answered is gone. -/
theorem voteKey_notMem_eraseIdx {votes : List (VoteCall n)} (hd : (votes.map voteKey).Nodup)
    {k : Nat} {call : VoteCall n} (hk : votes[k]? = some call) :
    voteKey call ∉ (votes.eraseIdx k).map voteKey := by
  rw [← List.eraseIdx_map]
  intro hmem
  obtain ⟨j, hj⟩ := List.getElem?_of_mem hmem
  have hkk : (votes.map voteKey)[k]? = some (voteKey call) := by
    rw [List.getElem?_map, hk]
    rfl
  rw [List.getElem?_eraseIdx] at hj
  split at hj
  · have := (List.getElem?_inj (List.getElem?_eq_some_iff.1 hj).1 hd).1 (hj.trans hkk.symm)
    omega
  · have := (List.getElem?_inj (List.getElem?_eq_some_iff.1 hj).1 hd).1 (hj.trans hkk.symm)
    omega

/-- The candidate takes a reply: nothing happened, or a vote was counted, or the last vote that was
missing made it leader, or a larger term made it a follower. -/
theorem handleVoteReply_cases {s : Server n α} {args : RequestVoteArgs n}
    {reply : RequestVoteReply} {elected : Bool}
    (h : s.handleVoteReply args reply = some (s', elected)) :
    (s' = s ∧ elected = false) ∨
    (s.raft.state = .candidate ∧ s.raft.currentTerm = args.term ∧
      ((reply.voteGranted = true ∧
        ((s' = { s with receivedVotes := s.receivedVotes + 1 } ∧ elected = false) ∨
          ∃ rf, n < 2 * (s.receivedVotes + 1) ∧ s.raft.becomeLeader = some rf ∧
            s' = { s with raft := rf, receivedVotes := s.receivedVotes + 1 } ∧ elected = true)) ∨
      (s.raft.currentTerm < reply.term ∧ s' = { s with raft := s.raft.becomeFollower reply.term } ∧
        elected = false))) := by
  rw [Server.handleVoteReply] at h
  split at h
  swap
  · cases h
    exact .inl ⟨rfl, rfl⟩
  next hcond =>
  split at h
  · next hgranted =>
    dsimp only at h
    split at h
    · next hmaj =>
      rw [Option.bind_eq_bind, Option.bind_eq_some_iff] at h
      obtain ⟨rf, hbl, h⟩ := h
      cases h
      exact .inr ⟨hcond.1, hcond.2, .inl ⟨hgranted, .inr ⟨rf, by omega, hbl, rfl, rfl⟩⟩⟩
    · cases h
      exact .inr ⟨hcond.1, hcond.2, .inl ⟨hgranted, .inl ⟨rfl, rfl⟩⟩⟩
  · split at h
    · next hgt =>
      cases h
      exact .inr ⟨hcond.1, hcond.2, .inr ⟨hgt, rfl, rfl⟩⟩
    · cases h
      exact .inl ⟨rfl, rfl⟩

/-- A candidate handles a vote, and may become leader. -/
theorem sim_requestVoteReply (hs : Sim m H c) {k : Nat}
    (hst : Step c (.requestVoteReply k) c') : ∃ H', Ext H H' ∧ Sim m H' c' := by
  have hsub : (c.votes.eraseIdx k).Sublist c.votes := List.eraseIdx_sublist ..
  -- the voters of the election, with the one whose reply granted its vote
  have hcount : ∀ {call : VoteCall n} {reply}, c.votes[k]? = some call → call.reply = some reply →
      call.epoch = (c.servers call.caller).epoch →
      (c.servers call.caller).raft.state = .candidate →
      (c.servers call.caller).raft.currentTerm = call.args.term → reply.voteGranted = true →
      ∃ S : Finset (Fin n), S.card = (c.servers call.caller).receivedVotes + 1 ∧
        ∀ r ∈ S, H.vote r (H.cur call.caller) = some call.caller ∧
          (call.caller, (c.servers call.caller).epoch, H.cur call.caller, r) ∉
            (c.votes.eraseIdx k).map voteKey := by
    intro call reply hk hr he hcand hterm hgranted
    rw [(hs.raft call.caller).cur] at hterm
    have hmem := List.mem_of_getElem? hk
    have hvote := (hs.votes call hmem).granted reply hr hgranted
    have hkeyeq : (call.caller, (c.servers call.caller).epoch, H.cur call.caller, call.callee) =
        voteKey call := by rw [← he, hterm]; rfl
    rw [← hterm] at hvote
    obtain ⟨S, hcard, hS, hS'⟩ := (hs.count call.caller).quorum hcand hvote
      (by rw [hkeyeq]; exact List.mem_map_of_mem hmem)
    refine ⟨S, hcard, fun r hmemS => ⟨hS r hmemS, fun hk' => ?_⟩⟩
    rcases hS' r hmemS with rfl | hnot
    · rw [hkeyeq] at hk'
      exact voteKey_notMem_eraseIdx hs.distinct hk hk'
    · exact hnot ((hsub.map voteKey).subset hk')
  cases hst with
  | @requestVoteReply _ call reply s' hk hr he h =>
    have hraft := hs.raft call.caller
    rcases handleVoteReply_cases h with
      ⟨rfl, _⟩ | ⟨hcand, hterm, ⟨hgranted, ⟨rfl, _⟩ | ⟨_, _, _, _, hfalse⟩⟩ | ⟨hgt, rfl, _⟩⟩
    · exact ⟨H, Ext.refl H, hs.update' (.refl hs.ok hs.indexed _) rfl hraft
        (hs.goroutines _) hsub (fun hc => ⟨hc, rfl, rfl, rfl⟩) (fun _ h => .inl h)
        (fun _ h => .inl h) (fun _ h => .inl h) (List.Subset.refl _) (hs.snapshots _)⟩
    · refine ⟨H, Ext.refl H, hs.update (.refl hs.ok hs.indexed _) rfl hraft
        ((hs.goroutines _).withRaft (Ext.refl H) (Nat.le_refl _))
        (fun call' hc => hs.votes call' (hsub.subset hc))
        ((hsub.map voteKey).nodup hs.distinct) (fun _ => ?_)
        (fun key hk _ => (hsub.map voteKey).subset hk) (fun _ h => .inl h) (fun _ h => .inl h)
        (fun _ h => .inl h) (List.Subset.refl _) (hs.snapshots _)⟩
      simp only [Cluster.set, Function.update_self]
      exact hcount hk hr he hcand hterm hgranted
    · cases hfalse
    · rw [hraft.cur] at hgt
      have mv : Moves H (H.raise call.caller reply.term) call.caller :=
        .raise hs.ok hs.indexed (Nat.le_of_lt hgt)
      exact ⟨_, mv.ext, hs.update' mv rfl (hraft.becomeFollower hs.ok hgt)
        ((hs.goroutines _).withRaft mv.ext (Nat.le_refl _)) hsub nofun (fun _ h => .inl h)
        (fun _ h => .inl h) (fun _ h => .inl h) (List.Subset.refl _)
        ((hs.snapshots _).kept (List.Subset.refl _) rfl rfl)⟩
  | @elected _ call reply s' hk hr he h =>
    have hraft := hs.raft call.caller
    rcases handleVoteReply_cases h with
      ⟨_, hfalse⟩ | ⟨hcand, hterm, ⟨hgranted, ⟨_, hfalse⟩ | ⟨rf, hmaj, hbl, rfl, _⟩⟩ |
        ⟨_, _, hfalse⟩⟩
    · cases hfalse
    · cases hfalse
    · obtain ⟨S, hcard, hS⟩ := hcount hk hr he hcand hterm hgranted
      have hQ : Quorum S := by
        rw [Quorum, Fintype.card_fin, hcard]
        exact hmaj
      obtain ⟨mv, hr, hkept, hlead, hlog⟩ :=
        becomeLeader_ok hs.ok hs.indexed hraft hcand hQ (fun r hr => (hS r hr).1) hbl
      refine ⟨_, mv.ext, hs.update' mv rfl hr
        ((hs.goroutines _).withRaft mv.ext (Nat.le_of_eq hkept.lastApplied.symm)) hsub
        (fun hc => ?_) (fun _ h => .inl h) (fun _ h => .inl h) (mem_or_of_mem_append ?_)
        (List.subset_append_left ..)
        ((hs.snapshots _).kept (List.subset_append_left ..) hkept.first hkept.snapshot)⟩
      · have hc : rf.state = .candidate := hc
        rw [hlead] at hc
        cases hc
      · have hct : rf.currentTerm = H.cur call.caller := hr.cur
        rw [hct]
        exact ⟨Function.update_self .., hlog⟩
    · cases hfalse

/-! ## Replication -/

/-- `runHeartBeats` starts goroutines with the term of a leader. -/
theorem GoroutinesOK.runHeartBeats {s : Server n α} (h : GoroutinesOK m H p s)
    (hr : RaftOK m H p s.raft) : GoroutinesOK m H p (s.runHeartBeats p) := by
  rw [Server.runHeartBeats]
  split
  · rename_i hst
    refine ⟨fun r hmem => ?_, h.applying, h.installing, h.delivered⟩
    rcases List.mem_append.1 hmem with hmem | hmem
    · exact h.replicators r hmem
    · obtain ⟨j, _, rfl⟩ := List.mem_map.1 hmem
      show H.leader s.raft.currentTerm = some p
      rw [hr.cur]
      exact (hr.leader hst).leader
  · exact h

/-- A heartbeat only starts goroutines. -/
theorem runHeartBeats_raft (s : Server n α) (i : Fin n) :
    (s.runHeartBeats i).raft = s.raft ∧ (s.runHeartBeats i).epoch = s.epoch ∧
      (s.runHeartBeats i).receivedVotes = s.receivedVotes := by
  rw [Server.runHeartBeats]
  split <;> exact ⟨rfl, rfl, rfl⟩

/-- A leader starts its goroutines. -/
theorem sim_heartBeat (hs : Sim m H c) {i : Fin n} (hst : Step c (.heartBeat i) c') :
    ∃ H', Ext H H' ∧ Sim m H' c' := by
  cases hst with
  | heartBeat =>
    obtain ⟨hraft, hepoch, hvotes⟩ := runHeartBeats_raft (c.servers i) i
    refine ⟨H, Ext.refl H,
      hs.update' (.refl hs.ok hs.indexed i) rfl (by rw [hraft]; exact hs.raft i)
      ((hs.goroutines i).runHeartBeats (hs.raft i)) (List.Sublist.refl _) (fun hc => ?_)
      (fun _ h => .inl h) (fun _ h => .inl h) (fun _ h => .inl h) (List.Subset.refl _)
      (by rw [hraft]; exact hs.snapshots i)⟩
    rw [hraft] at hc
    exact ⟨hc, rfl, hepoch, hvotes⟩

/-- A service gives a command to a leader. -/
theorem sim_start (hs : Sim m H c) {i : Fin n} {command : Option α} {g : Nat}
    (hst : Step c (.start i command g) c') : ∃ H', Ext H H' ∧ Sim m H' c' := by
  cases hst with
  | startRefused => exact ⟨H, Ext.refl H, hs⟩
  | @start _ _ _ index term rf hstart =>
    obtain ⟨H', hh, hlead, hmint⟩ := start_ok hs.ok hs.indexed (hs.raft i) hstart
    have mv := hh.moves
    obtain ⟨hraft, hepoch, hvotes⟩ :=
      runHeartBeats_raft ({ c.servers i with raft := rf } : Server n α) i
    refine ⟨H', mv.ext, hs.update' mv rfl (by rw [hraft]; exact hh.raft)
      (((hs.goroutines i).withRaft mv.ext
        (Nat.le_of_eq hh.kept.lastApplied.symm)).runHeartBeats hh.raft) (List.Sublist.refl _)
      (fun hc => ?_) (fun _ h => .inl h) (fun _ h => .inl h)
      (mem_or_of_mem_append ⟨hlead, hmint⟩) (List.subset_append_left ..) ?_⟩
    · rw [hraft] at hc
      obtain ⟨h1, h2⟩ := hh.candidate hc
      exact ⟨h1, h2, hepoch, hvotes⟩
    · rw [hraft]
      exact (hs.snapshots i).kept (List.subset_append_left ..) hh.kept.first hh.kept.snapshot

/-- A goroutine sends entries or a snapshot. -/
theorem sim_replicate (hs : Sim m H c) {i : Fin n} {k : Nat}
    (hadm : m.Admits c (.replicate i k)) (hst : Step c (.replicate i k) c') :
    ∃ H', Ext H H' ∧ Sim m H' c' := by
  have hg := hs.goroutines i
  have hg' : GoroutinesOK m H i { c.servers i with
      replicators := (c.servers i).replicators.eraseIdx k } :=
    ⟨fun r' hr' => hg.replicators r' ((List.eraseIdx_sublist ..).subset hr'), hg.applying,
      hg.installing, hg.delivered⟩
  have hfresh : ∀ r, (c.servers i).replicators[k]? = some r →
      m.staleSend ∨ r.currentTerm = (c.servers i).raft.currentTerm := fun r hr =>
    hadm.1.imp id fun hns => hns r hr
  refine ⟨H, Ext.refl H, ?_⟩
  cases hst with
  | replicateIdle =>
    exact hs.update' (.refl hs.ok hs.indexed i) rfl (hs.raft i) hg' (List.Sublist.refl _)
      (fun hc => ⟨hc, rfl, rfl, rfl⟩) (fun _ h => .inl h) (fun _ h => .inl h)
      (fun _ h => .inl h) (List.Subset.refl _) (hs.snapshots i)
  | replicateAppend hr hreq =>
    obtain ⟨j, hargs⟩ := buildRequest_ok hs.ok hs.indexed (hs.raft i)
      (hg.replicators _ (List.mem_of_getElem? hr)) (hfresh _ hr) hreq
    exact hs.update' (.refl hs.ok hs.indexed i) rfl (hs.raft i) hg' (List.Sublist.refl _)
      (fun hc => ⟨hc, rfl, rfl, rfl⟩) (mem_or_of_mem_append ⟨_, j, hargs, nofun⟩)
      (fun _ h => .inl h) (fun _ h => .inl h) (List.Subset.refl _) (hs.snapshots i)
  | replicateSnapshot hr hreq =>
    obtain ⟨_, hargs⟩ := buildRequest_ok hs.ok hs.indexed (hs.raft i)
      (hg.replicators _ (List.mem_of_getElem? hr)) (hfresh _ hr) hreq
    exact hs.update' (.refl hs.ok hs.indexed i) rfl (hs.raft i) hg' (List.Sublist.refl _)
      (fun hc => ⟨hc, rfl, rfl, rfl⟩) (fun _ h => .inl h)
      (mem_or_of_mem_append ⟨⟨_, hargs⟩, nofun⟩) (fun _ h => .inl h) (List.Subset.refl _)
      (hs.snapshots i)

/-- A server handles entries. -/
theorem sim_appendEntries (hs : Sim m H c) {k g : Nat}
    (hst : Step c (.appendEntries k g) c') : ∃ H', Ext H H' ∧ Sim m H' c' := by
  cases hst with
  | @appendEntries _ _ call rf reply hk hae =>
    obtain ⟨V, j, hargs, _⟩ := hs.appends call (List.mem_of_getElem? hk)
    obtain ⟨H', hh, hreply⟩ := appendEntries_ok hs.ok hs.indexed (hs.raft call.callee) hargs hae
    have mv := hh.moves
    refine ⟨H', mv.ext, hs.update' mv rfl hh.raft
      ((hs.goroutines _).withRaft mv.ext (Nat.le_of_eq hh.kept.lastApplied.symm))
      (List.Sublist.refl _) (fun hc => ⟨(hh.candidate hc).1, (hh.candidate hc).2, rfl, rfl⟩)
      (fun call' hc => ?_) (fun _ h => .inl h) (fun _ h => .inl h) (List.Subset.refl _)
      ((hs.snapshots _).kept (List.Subset.refl _) hh.kept.first hh.kept.snapshot)⟩
    rcases List.mem_or_eq_of_mem_set hc with hc | rfl
    · exact .inl hc
    · refine .inr ⟨V, j, hargs.mono mv.ext, fun r hr => ?_⟩
      cases hr
      exact hreply

/-- A leader handles an answer to entries, and may commit. -/
theorem sim_appendEntriesReply (hs : Sim m H c) {k : Nat}
    (hst : Step c (.appendEntriesReply k) c') : ∃ H', Ext H H' ∧ Sim m H' c' := by
  cases hst with
  | @appendEntriesReply _ call reply rf again assigned hk hr _ hae =>
    obtain ⟨V, j, hargs, hreply⟩ := hs.appends call (List.mem_of_getElem? hk)
    obtain ⟨H', hh, hev⟩ := handleAppendEntriesRPCResponse_ok hs.ok hs.indexed
      (hs.raft call.caller) hargs (hreply reply hr) hae
    have mv := hh.moves
    have hg : GoroutinesOK m H' call.caller { c.servers call.caller with raft := rf } :=
      (hs.goroutines _).withRaft mv.ext (Nat.le_of_eq hh.kept.lastApplied.symm)
    refine ⟨H', mv.ext, hs.update' mv rfl hh.raft ⟨fun r hmem => ?_, hg.applying, hg.installing,
      hg.delivered⟩ (List.Sublist.refl _)
      (fun hc => ⟨(hh.candidate hc).1, (hh.candidate hc).2, rfl, rfl⟩)
      (fun call' hc => .inl ((List.eraseIdx_sublist ..).subset hc)) (fun _ h => .inl h)
      (fun ev hmem => ?_) (List.subset_append_left ..)
      ((hs.snapshots _).kept (List.subset_append_left ..) hh.kept.first hh.kept.snapshot)⟩
    · simp only at hmem
      split at hmem
      · rcases List.mem_append.1 hmem with hmem | hmem
        · exact hg.replicators r hmem
        · rw [List.mem_singleton] at hmem
          subst hmem
          exact mv.ext.leader _ _ hargs.leader
      · exact hg.replicators r hmem
    · rcases List.mem_append.1 hmem with hmem | hmem
      · exact .inl hmem
      · obtain ⟨k, hk, rfl⟩ := List.mem_map.1 hmem
        exact .inr (hev k hk).2.2.2

/-! ## Snapshots -/

/-- A service takes a snapshot. -/
theorem sim_snapshot (hs : Sim m H c) {i : Fin n} {index g : Nat} {b : Bytes}
    (hst : Step c (.snapshot i index b g) c') : ∃ H', Ext H H' ∧ Sim m H' c' := by
  cases hst with
  | @snapshot _ _ _ rf msg hmsg hsn =>
    have hle := (hs.goroutines i).delivered msg hmsg
    obtain ⟨hr, happ, _, hstate, hcase⟩ := snapshot_ok hs.ok hs.indexed (hs.raft i) hle hsn
    refine ⟨H, Ext.refl H, hs.update' (.refl hs.ok hs.indexed i) rfl hr
      ((hs.goroutines i).withRaft (Ext.refl H) (Nat.le_of_eq happ.symm)) (List.Sublist.refl _)
      (fun hc => ⟨hstate ▸ hc, rfl, rfl, rfl⟩) (fun _ h => .inl h) (fun _ h => .inl h)
      (mem_or_of_mem_append trivial) (List.subset_append_left ..) ?_⟩
    rcases hcase with rfl | ⟨hlt, hidx, hsnap⟩
    · exact (hs.snapshots i).kept (List.subset_append_left ..) rfl rfl
    · show SnapshotOK _ i rf
      rw [SnapshotOK, hidx, hsnap, if_neg (by omega)]
      exact .inl (List.mem_append_right _ (List.mem_singleton.2 rfl))

/-- A server handles a snapshot. -/
theorem sim_installSnapshot (hs : Sim m H c) {k g : Nat}
    (hadm : m.Admits c (.installSnapshot k g)) (hst : Step c (.installSnapshot k g) c') :
    ∃ H', Ext H H' ∧ Sim m H' c' := by
  -- whether or not the snapshot is taken, the handler keeps the invariant of its server
  have hok : ∀ {call rf reply msg}, c.snaps[k]? = some call →
      (c.servers call.callee).raft.installSnapshot call.args g = some (rf, reply, msg) →
      ∃ H', Installed m H H' call.callee (c.servers call.callee).raft rf ∧
        SnapCallOK H' { call with reply := some reply } ∧
        SnapshotSent call.args (c.servers call.callee).raft rf msg := by
    intro call rf reply msg hk his
    obtain ⟨⟨V, hargs⟩, _⟩ := hs.snaps call (List.mem_of_getElem? hk)
    have hraft := hs.raft call.callee
    have hclean := hadm.2.imp id fun hnc => fun h1 h2 h3 h4 => hnc call hk h1 h2 h3
      ⟨_, hraft.log.getLastIndex (hs.ok.tip.tip _) hs.indexed, h4⟩
    obtain ⟨H', hi, hreply, hsent⟩ :=
      installSnapshot_ok hs.ok hs.indexed hraft hargs hclean his
    exact ⟨H', hi, ⟨⟨V, hargs.mono hi.moves.ext⟩, fun r hr => by cases hr; exact hreply⟩, hsent⟩
  cases hst with
  | installRefused hk his =>
    obtain ⟨H', hi, hcall, hsent⟩ := hok hk his
    have mv := hi.moves
    refine ⟨H', mv.ext, hs.update' mv rfl hi.raft ((hs.goroutines _).withRaft mv.ext hi.applied_le)
      (List.Sublist.refl _) (fun hc => ⟨(hi.candidate hc).1, (hi.candidate hc).2, rfl, rfl⟩)
      (fun _ h => .inl h) (fun call' hc => ?_) (mem_or_of_mem_append trivial)
      (List.subset_append_left ..)
      ((hs.snapshots _).kept (List.subset_append_left ..) hsent.first hsent.snapshot)⟩
    rcases List.mem_or_eq_of_mem_set hc with hc | rfl
    · exact .inl hc
    · exact .inr hcall
  | @installSnapshot _ _ call rf _ _ hk his =>
    obtain ⟨H', hi, hcall, rfl, hlt, _, happ, hidx, hsnap⟩ := hok hk his
    have mv := hi.moves
    have hg : GoroutinesOK m H' call.callee { c.servers call.callee with raft := rf } :=
      (hs.goroutines _).withRaft mv.ext hi.applied_le
    refine ⟨H', mv.ext, hs.update' mv rfl hi.raft ⟨hg.replicators, hg.applying,
      List.forall_mem_append.2 ⟨hg.installing, List.forall_mem_singleton.2
        ⟨hcall, Nat.le_of_eq happ.symm, _, _, _, rfl⟩⟩, hg.delivered⟩ (List.Sublist.refl _)
      (fun hc => ⟨(hi.candidate hc).1, (hi.candidate hc).2, rfl, rfl⟩) (fun _ h => .inl h)
      (fun call' hc => .inl ((List.eraseIdx_sublist ..).subset hc)) (mem_or_of_mem_append trivial)
      (List.subset_append_left ..) ?_⟩
    show SnapshotOK _ call.callee rf
    rw [SnapshotOK, hidx, hsnap, if_neg (by omega)]
    exact .inr (List.mem_append_right _ (List.mem_singleton.2 rfl))

/-- A leader handles an answer to a snapshot. -/
theorem sim_installSnapshotReply (hs : Sim m H c) {k : Nat}
    (hst : Step c (.installSnapshotReply k) c') : ∃ H', Ext H H' ∧ Sim m H' c' := by
  cases hst with
  | @installSnapshotReply _ call reply hk hr _ =>
    obtain ⟨⟨V, hargs⟩, hreply⟩ := hs.snaps call (List.mem_of_getElem? hk)
    obtain ⟨H', hh⟩ := handleInstallSnapshotRPCResponse_ok hs.ok hs.indexed (hs.raft call.caller)
      hargs (hreply reply hr)
    have mv := hh.moves
    exact ⟨H', mv.ext, hs.update' mv rfl hh.raft
      ((hs.goroutines _).withRaft mv.ext (Nat.le_of_eq hh.kept.lastApplied.symm))
      (List.Sublist.refl _) (fun hc => ⟨(hh.candidate hc).1, (hh.candidate hc).2, rfl, rfl⟩)
      (fun _ h => .inl h) (fun call' hc => .inl ((List.eraseIdx_sublist ..).subset hc))
      (fun _ h => .inl h) (List.Subset.refl _)
      ((hs.snapshots _).kept (List.Subset.refl _) hh.kept.first hh.kept.snapshot)⟩

/-! ## Applying, crashing and restarting -/

/-- `apply` takes entries. -/
theorem sim_takeBatch (hs : Sim m H c) {i : Fin n} (hst : Step c (.takeBatch i) c') :
    ∃ H', Ext H H' ∧ Sim m H' c' := by
  cases hst with
  | takeBatch _ htb =>
    obtain ⟨hr, rfl, hbatch⟩ := takeBatch_ok hs.ok hs.indexed (hs.raft i) htb
    have hg : GoroutinesOK m H i { c.servers i with
        raft := { (c.servers i).raft with lastApplied := (c.servers i).raft.commitIndex } } :=
      (hs.goroutines i).withRaft (Ext.refl H) (hs.raft i).applied_le
    exact ⟨H, Ext.refl H, hs.update' (.refl hs.ok hs.indexed i) rfl hr
      ⟨hg.replicators, hbatch, hg.installing, hg.delivered⟩ (List.Sublist.refl _)
      (fun hc => ⟨hc, rfl, rfl, rfl⟩) (fun _ h => .inl h) (fun _ h => .inl h) (fun _ h => .inl h)
      (List.Subset.refl _) ((hs.snapshots i).kept (List.Subset.refl _) rfl rfl)⟩

/-- `apply` sends a command. -/
theorem sim_sendCommand (hs : Sim m H c) {i : Fin n} (hst : Step c (.sendCommand i) c') :
    ∃ H', Ext H H' ∧ Sim m H' c' := by
  cases hst with
  | @sendCommand _ e es happ =>
    have hg := hs.goroutines i
    have hmem : ∀ x, x = e ∨ x ∈ es → x ∈ (c.servers i).applying := fun x hx => by
      rw [happ]
      exact List.mem_cons.2 hx
    have he := hg.applying e (hmem e (.inl rfl))
    exact ⟨H, Ext.refl H, hs.update' (.refl hs.ok hs.indexed i) rfl (hs.raft i)
      ⟨hg.replicators, fun x hx => hg.applying x (hmem x (.inr hx)), hg.installing,
        List.forall_mem_append.2 ⟨hg.delivered, List.forall_mem_singleton.2 he.2⟩⟩
      (List.Sublist.refl _) (fun hc => ⟨hc, rfl, rfl, rfl⟩) (fun _ h => .inl h)
      (fun _ h => .inl h) (mem_or_of_mem_append he.1) (List.subset_append_left ..)
      ((hs.snapshots i).kept (List.subset_append_left ..) rfl rfl)⟩

/-- A snapshot is sent to the service. -/
theorem sim_sendSnapshot (hs : Sim m H c) {i : Fin n} {k : Nat}
    (hst : Step c (.sendSnapshot i k) c') : ∃ H', Ext H H' ∧ Sim m H' c' := by
  cases hst with
  | @sendSnapshot _ _ inst hk =>
    have hg := hs.goroutines i
    obtain ⟨hcall, hle, b, t, idx, hmsg⟩ := hg.installing inst (List.mem_of_getElem? hk)
    exact ⟨H, Ext.refl H, hs.update' (.refl hs.ok hs.indexed i) rfl (hs.raft i)
      ⟨hg.replicators, hg.applying,
        fun x hx => hg.installing x ((List.eraseIdx_sublist ..).subset hx),
        List.forall_mem_append.2 ⟨hg.delivered, List.forall_mem_singleton.2 hle⟩⟩
      (List.Sublist.refl _) (fun hc => ⟨hc, rfl, rfl, rfl⟩) (fun _ h => .inl h)
      (mem_or_of_mem_append hcall) (mem_or_of_mem_append (by rw [hmsg]; trivial))
      (List.subset_append_left ..) ((hs.snapshots i).kept (List.subset_append_left ..) rfl rfl)⟩

/-- A server is killed. -/
theorem sim_kill (hs : Sim m H c) {i : Fin n} (hst : Step c (.kill i) c') :
    ∃ H', Ext H H' ∧ Sim m H' c' := by
  cases hst with
  | kill =>
    exact ⟨H, Ext.refl H, hs.update' (.refl hs.ok hs.indexed i) rfl (hs.raft i).kill
      ((hs.goroutines i).withRaft (Ext.refl H) (Nat.le_refl _)) (List.Sublist.refl _) nofun
      (fun _ h => .inl h) (fun _ h => .inl h) (fun _ h => .inl h) (List.Subset.refl _)
      ((hs.snapshots i).kept (List.Subset.refl _) rfl rfl)⟩

/-- A server is started again with what was saved. -/
theorem sim_restart (hs : Sim m H c) {i : Fin n} {g : Nat}
    (hst : Step c (.restart i g) c') : ∃ H', Ext H H' ∧ Sim m H' c' := by
  cases hst with
  | restart hmake =>
    obtain ⟨rf, first, hrf, _, rfl⟩ := exists_of_make hmake
    obtain ⟨hr, hlog, hps, hstate⟩ := make_ok hs.ok hs.indexed (hs.raft i) hrf
    refine ⟨H, Ext.refl H,
      hs.update' (.refl hs.ok hs.indexed i) rfl hr ⟨nofun, nofun, nofun, nofun⟩
      (List.Sublist.refl _) (fun hc => ?_) (fun _ h => .inl h) (fun _ h => .inl h)
      (fun _ h => .inl h) (List.Subset.refl _)
      ((hs.snapshots i).kept (List.Subset.refl _) (congrArg sentinel hlog)
        (congrArg Persister.snapshot hps))⟩
    have hc : rf.state = .candidate := hc
    rw [hstate] at hc
    cases hc

/-! ## Runs -/

/-- **Simulation.** A step that the mode admits is matched by steps of the abstract protocol. -/
theorem sim_step (hs : Sim m H c) {a : Action n α} (hadm : m.Admits c a)
    (hst : c.step a = some c') : ∃ H', Ext H H' ∧ Sim m H' c' := by
  have hst := step_cases hst
  cases a with
  | electionTimeout i => exact sim_electionTimeout hs hst
  | heartBeat i => exact sim_heartBeat hs hst
  | start i command g => exact sim_start hs hst
  | snapshot i index b g => exact sim_snapshot hs hst
  | replicate i k => exact sim_replicate hs hadm hst
  | requestVote k => exact sim_requestVote hs hst
  | requestVoteReply k => exact sim_requestVoteReply hs hst
  | appendEntries k g => exact sim_appendEntries hs hst
  | appendEntriesReply k => exact sim_appendEntriesReply hs hst
  | installSnapshot k g => exact sim_installSnapshot hs hadm hst
  | installSnapshotReply k => exact sim_installSnapshotReply hs hst
  | loseVote k =>
    cases hst with
    | loseVote => exact ⟨H, Ext.refl H, hs.lose rfl (List.eraseIdx_sublist ..) (List.Subset.refl _)
      (List.Subset.refl _) rfl⟩
  | loseAppend k =>
    cases hst with
    | loseAppend =>
      exact ⟨H, Ext.refl H, hs.lose rfl (List.Sublist.refl _) (List.eraseIdx_sublist ..).subset
      (List.Subset.refl _) rfl⟩
  | loseSnap k =>
    cases hst with
    | loseSnap => exact ⟨H, Ext.refl H, hs.lose rfl (List.Sublist.refl _) (List.Subset.refl _)
      (List.eraseIdx_sublist ..).subset rfl⟩
  | takeBatch i => exact sim_takeBatch hs hst
  | sendCommand i => exact sim_sendCommand hs hst
  | sendSnapshot i k => exact sim_sendSnapshot hs hst
  | kill i => exact sim_kill hs hst
  | restart i g => exact sim_restart hs hst

/-- The initial cluster fits the empty chronicle. -/
theorem sim_init : Sim m Chronicle.init (Cluster.init : Cluster n α) where
  ok := OK.init
  indexed := fun V i e he => by cases he
  raft := fun i =>
    { cur := rfl
      vote := rfl
      log := ⟨rfl, rfl, ⟨Nat.le_refl 0, rfl⟩, Nat.le_refl 0, fun _ => rfl⟩
      sentinel_ok := .inl rfl
      spare := spareOK_nil _ _
      durable := ⟨rfl, nofun⟩
      first_le := Nat.le_refl 0
      applied_le := Nat.le_refl 0
      known := .inl rfl
      agreed := .inr ⟨Nat.le_refl 0, nofun⟩
      candidate := nofun
      leader := nofun
      acked := fun T k hb ha => absurd ha (Nat.not_le.2 hb) }
  goroutines := fun i => ⟨nofun, nofun, nofun, nofun⟩
  votes := nofun
  distinct := List.nodup_nil
  count := fun i => nofun
  appends := nofun
  snaps := nofun
  trace := nofun
  snapshots := fun i => rfl

/-- A run from a cluster that fits a chronicle. -/
theorem sim_run (hs : Sim m H c) (hc : Reach Cluster.step m.Admits c c') :
    ∃ H', Ext H H' ∧ Sim m H' c' :=
  hc.invariant (P := fun c' => ∃ H', Ext H H' ∧ Sim m H' c') ⟨H, Ext.refl H, hs⟩
    fun ⟨_, e, hs⟩ hadm hst =>
      have ⟨H', e', hs'⟩ := sim_step hs hadm hst
      ⟨H', e.trans e', hs'⟩

/-- Every cluster that runs of a mode reach fits a chronicle. -/
theorem exists_sim (hc : Reachable m.Admits c) : ∃ H, Sim m H c :=
  have ⟨H, _, hs⟩ := sim_run sim_init hc
  ⟨H, hs⟩

/-- The mode of all runs. -/
def Mode.any : Mode := ⟨True, True⟩

theorem any_admits {c : Cluster n α} {a : Action n α} : Mode.any.Admits c a :=
  ⟨.inl trivial, .inl trivial⟩

/-- Every reachable cluster fits a chronicle. -/
theorem exists_sim_any {ok : Cluster n α → Action n α → Prop} (hc : Reachable ok c) :
    ∃ H, Sim Mode.any H c :=
  exists_sim (hc.mono fun _ _ _ => any_admits)

end DistLabs
