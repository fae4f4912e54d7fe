import DistLabs.Raft.Appends
import Mathlib.Data.List.Pairwise

/-!
# What leaders do refines the abstract protocol

`Start`, the requests that a replication goroutine builds, and the handlers of replies. The
counting loop commits only what a majority acknowledged (`Counted`).
-/

namespace DistLabs

open Lib Chronicle

variable {n : Nat} {α : Type} {m : Mode} {H : Chron n α} {i : Fin n} {rf rf' : Raft n α}

/-! ## The log of a leader -/

namespace LeaderOK

variable (l : LeaderOK H i rf)
include l

/-- The term of a leader had an election. -/
theorem elected : H.Elected (H.cur i) := elected_of_leader l.leader

/-- The log of a leader ends where that of its term ends. -/
theorem tip_index : (H.tip i).index = (H.ledger (H.cur i)).length := by rw [l.tip]; rfl

/-- A leader's abstract log is the log of its term. -/
theorem path (hok : H.OK) : H.path (H.tip i) = H.ledger (H.cur i) := by
  rw [l.tip]
  exact (hok.ledger.pathTo_posAt (Nat.le_refl _)).trans (List.take_length ..)

/-- A leader's log is the compacted log of its term. -/
theorem leaderLog (hok : H.OK) (h : LogOK H (H.tip i) rf.log) :
    LeaderLog H (H.cur i) (H.ledger (H.cur i)).length rf.log := by
  refine ⟨?_, by rw [← l.tip_index]; exact h.le, Nat.le_refl _, l.clean⟩
  rw [List.take_length, ← l.path hok]
  exact h.eq

/-- What a leader knows to be committed is in its log. -/
theorem commit_le (hok : H.OK) {c : Nat} (hk : Known H (H.hor i) c) :
    c ≤ (H.ledger (H.cur i)).length := by
  rcases hk with h0 | ⟨T, k, hd, hc, hT⟩
  · omega
  · exact Nat.le_trans hc (hok.done_le hd (Nat.le_trans hT l.hor) l.elected).1

end LeaderOK

/-! ## `Start` -/

/-- `Start` appends the entry `e` to the log of its term. -/
theorem Moves.append (hok : H.OK) (hidx : Indexed H) (l : LeaderOK H i rf) {e : LogEntry α}
    (ht : e.term = H.cur i) (hi : e.index = (H.tip i).index + 1) : Moves H (H.append i e) i := by
  refine ⟨hok.append l.leader ht, ext_append hok.ack, fun _ hj => frame_append l.leader hj, ?_⟩
  intro V k x hx
  by_cases hV : V = H.cur i
  · subst hV
    simp only [Chronicle.append, Function.update_self] at hx
    rcases of_getElem?_concat hx with hx | ⟨rfl, rfl⟩
    · exact hidx _ k x hx
    · rw [hi, l.tip_index]
  · simp only [Chronicle.append, Function.update_of_ne hV] at hx
    exact hidx V k x hx

/-- The log after `Start`. -/
theorem LogOK.append (hok : H.OK) (h : LogOK H (H.tip i) rf.log) (l : LeaderOK H i rf)
    {e : LogEntry α} : LogOK (H.append i e) ((H.append i e).tip i) (rf.log ++ [e]) := by
  have hs : sentinel (rf.log ++ [e]) = sentinel rf.log := by rw [h.eq]; rfl
  have htip : (H.append i e).tip i = ⟨H.cur i, (H.ledger (H.cur i)).length + 1⟩ :=
    Function.update_self ..
  have hpath : (H.append i e).path ((H.append i e).tip i) = H.ledger (H.cur i) ++ [e] := by
    rw [htip]
    simp [Chronicle.path, pathTo, Chronicle.append]
  have hle : (sentinel rf.log).index ≤ (H.ledger (H.cur i)).length := by
    rw [← l.tip_index]
    exact h.le
  refine ⟨?_, ?_, ?_, ?_, ?_⟩
  · rw [hs, hpath, List.drop_append_of_le_length hle, ← l.path hok, ← List.cons_append, ← h.eq]
  · rw [hs]
    exact h.command
  · rw [hs]
    exact (ext_append hok.ack).validPos h.valid
  · rw [hs, htip]
    exact Nat.le_succ_of_le hle
  · rw [hs, htip]
    intro heq
    have : (sentinel rf.log).index = (H.ledger (H.cur i)).length + 1 := heq
    omega

/-- The state after `Start`. -/
theorem RaftOK.append (hok : H.OK) (hidx : Indexed H) (h : RaftOK m H i rf)
    (hst : rf.state = .leader) {e : LogEntry α} (ht : e.term = H.cur i)
    (hi : e.index = (H.tip i).index + 1) (g : Nat) :
    RaftOK m (H.append i e) i (rf.appendAt rf.log.length [e] g).persist := by
  have l := h.leader hst
  have mv := Moves.append hok hidx l ht hi
  have hext := mv.ext
  have hled : (H.append i e).ledger (H.cur i) = H.ledger (H.cur i) ++ [e] :=
    Function.update_self ..
  have hhor : (H.append i e).hor i = H.cur i := by
    simp only [Chronicle.append, Function.update_self]
    exact Nat.max_eq_right l.hor
  have hack : (H.append i e).ack i (H.cur i) = (H.ledger (H.cur i)).length + 1 :=
    update₂_self ..
  have htip : (H.append i e).tip i = ⟨H.cur i, (H.ledger (H.cur i)).length + 1⟩ :=
    Function.update_self ..
  have hlen : ((H.append i e).ledger (H.cur i)).length = (H.ledger (H.cur i)).length + 1 := by
    rw [hled, List.length_append, List.length_singleton]
  have hpath : (H.append i e).path ((H.append i e).tip i) = (H.append i e).ledger (H.cur i) := by
    rw [htip, Chronicle.path, pathTo]
    exact List.take_of_length_le (Nat.le_of_eq hlen)
  have hlog : (rf.appendAt rf.log.length [e] g).persist.log = rf.log ++ [e] := by
    simp [Raft.persist, Raft.appendAt]
  have hs : sentinel (rf.appendAt rf.log.length [e] g).persist.log = sentinel rf.log := by
    rw [hlog, h.log.eq]
    rfl
  have hsle : (sentinel rf.log).index ≤ (H.ledger (H.cur i)).length := by
    rw [← l.tip_index]
    exact h.log.le
  have hclean : (sentinel rf.log).term =
      termAt ((H.append i e).ledger (H.cur i)) (sentinel rf.log).index := by
    rw [hled, termAt_append hsle]
    exact l.clean
  have hlogOK : LogOK (H.append i e) ((H.append i e).tip i)
      (rf.appendAt rf.log.length [e] g).persist.log := by
    rw [hlog]
    exact h.log.append hok l
  exact
    { cur := h.cur
      vote := h.vote
      log := hlogOK
      sentinel_ok := by
        rw [hs]
        left
        rw [hpath]
        exact hclean
      spare := (spareOK_appendAt hok hidx h.log h.spare
        (by rw [h.log.length (hok.tip.tip i)]; omega) (Nat.le_refl _)).mono hext
      durable := durable_persist _
      first_le := by
        rw [hs]
        exact h.first_le
      applied_le := h.applied_le
      known := h.known.mono hext (hext.hor i)
      agreed := h.agreed.imp id fun a => by
        rw [hs]
        refine ⟨by rw [htip]; exact Nat.le_succ_of_le (by rw [← l.tip_index]; exact a.le),
          fun hlt => ?_⟩
        obtain ⟨T, k, hd, hk, hT, heq⟩ := a.done hlt
        refine ⟨T, k, hd, hk, hT, ?_⟩
        have hale := a.le
        rw [l.tip_index] at hale
        rw [hpath]
        show ((H.append i e).ledger (H.cur i)).take rf.commitIndex =
          ((H.append i e).ledger T).take rf.commitIndex
        rw [hext.take hale, ← l.path hok,
          hext.take (Nat.le_trans hk (hok.ack.done_range T k hd).2.2)]
        exact heq
      candidate := fun hc => by
        have hc : rf.state = .candidate := hc
        rw [hst] at hc
        cases hc
      leader := fun _ =>
        { leader := l.leader
          tip := by
            show (H.append i e).tip i = posAt ((H.append i e).ledger (H.cur i))
              ((H.append i e).ledger (H.cur i)).length
            rw [hlen, posAt, hled, termAt_append_singleton, htip]
            exact congrArg (Pos.mk · _) ht.symm
          clean := by
            rw [hs]
            exact hclean
          hor := Nat.le_of_eq hhor
          ack := fun _ => by
            show ((H.append i e).ledger (H.cur i)).length ≤ (H.append i e).ack i (H.cur i)
            rw [hlen, hack]
          done := l.done
          next := l.next
          matched := fun p => (l.matched p).imp id (.imp id fun hm =>
            Nat.le_trans hm (hext.ack p _)) }
      acked := fun T k hb ha => by
        by_cases hT : T = H.cur i
        · subst hT
          rw [hack, ← hlen] at ha
          refine ⟨_, List.mem_cons_self, h.cur, ?_⟩
          have hown := mv.ok.ledger.own (H.cur i) k (hext.elected l.elected) hb ha
          exact hlogOK.holdsAt mv.ok mv.indexed (mv.ok.tip.tip i) (hext.elected l.elected)
            (Nat.le_refl _) (by rw [htip, hlen]) (by rw [hpath]) hb ha
        · rw [Chronicle.append] at ha
          simp only [update₂_of_ne (show ¬ (i = i ∧ T = H.cur i) from fun hc => hT hc.2)] at ha
          exact h.acked_save _ T k hb ha }

/-- `Start`. -/
theorem start_ok (hok : H.OK) (hidx : Indexed H) (h : RaftOK m H i rf) {command : Option α}
    {g index term : Nat} (hr : rf.start command g = some (rf', some (index, term))) :
    ∃ H', Handled m H H' i rf rf' ∧ H'.leader term = some i ∧
      Minted H' ⟨command, term, index⟩ := by
  have htip := hok.tip.tip i
  rw [Raft.start] at hr
  split at hr
  · cases hr
  · rename_i hst
    have hst : rf.state = .leader := not_not.1 hst
    have l := h.leader hst
    have mv := Moves.append hok hidx l (e := ⟨command, H.cur i, (H.tip i).index + 1⟩) rfl rfl
    have h' := h.append hok hidx hst (e := ⟨command, H.cur i, (H.tip i).index + 1⟩) rfl rfl g
    simp only [h.log.getNextIndex htip hidx, h.cur, Option.bind_eq_bind, Option.bind_some,
      Option.pure_def] at hr
    rw [h'.log.getLastIndex (mv.ok.tip.tip i) mv.indexed] at hr
    simp only [Option.bind_some, Option.some.injEq, Prod.mk.injEq] at hr
    obtain ⟨rfl, rfl, rfl⟩ := hr
    have hs : sentinel (rf.appendAt rf.log.length
        [⟨command, H.cur i, (H.tip i).index + 1⟩] g).persist.log = sentinel rf.log := by
      simp only [Raft.persist, Raft.appendAt, List.take_length]
      rw [h.log.eq]
      rfl
    refine ⟨_, ⟨mv, h', ⟨hs, rfl, rfl, Nat.le_refl _⟩, fun hc => ?_⟩, ?_, ?_⟩
    · have hc : rf.state = .candidate := hc
      rw [hst] at hc
      cases hc
    · show H.leader rf.currentTerm = some i
      rw [h.cur]
      exact l.leader
    · have hix : ((H.append i ⟨command, H.cur i, (H.tip i).index + 1⟩).tip i).index =
          (H.tip i).index + 1 := by
        simp [Chronicle.append, l.tip_index]
      have hct : (rf.appendAt rf.log.length
        [⟨command, H.cur i, (H.tip i).index + 1⟩] g).persist.currentTerm = H.cur i := h.cur
      rw [hix, hct]
      refine ⟨Nat.succ_pos _, ?_⟩
      simp [Chronicle.append, l.tip_index]

/-! ## Requests -/

/-- The entries from `next` on of a log that is the log of a term. -/
theorem LogOK.entries_from {tip : Pos} (h : LogOK H tip rf.log) {V : Nat}
    (hpath : H.path tip = H.ledger V) {next : Nat} (hfirst : (sentinel rf.log).index < next)
    (hnext : next ≤ (H.ledger V).length + 1) :
    (rf.log.drop (next - (sentinel rf.log).index)).takeD ((H.ledger V).length + 1 - next) .zero =
      ((H.ledger V).take (H.ledger V).length).drop (next - 1) := by
  rw [h.drop hfirst, hpath, List.take_length,
    List.takeD_eq_take _ (by rw [List.length_drop]; omega), List.take_of_length_le]
  rw [List.length_drop]
  omega

/-- The requests that a replication goroutine builds, from the log of the term its server leads. -/
theorem buildRequest_ok (hok : H.OK) (hidx : Indexed H) (h : RaftOK m H i rf) {server : Fin n}
    {term : Nat} (hl : H.leader term = some i) (hfresh : m.staleSend ∨ term = rf.currentTerm)
    {request : Raft.Request n α} (hr : rf.buildRequest i server term = some (some request)) :
    match request with
    | .append args => ∃ j, AppendArgsOK m H i args (H.cur i) j
    | .snapshot args => args.term = term ∧ SnapArgsOK H i server args (H.cur i) := by
  have htip := hok.tip.tip i
  rw [Raft.buildRequest] at hr
  split at hr
  · cases hr
  rename_i hst
  have hst : rf.state = .leader := not_not.1 hst
  have l := h.leader hst
  have hle := hok.leader_le hl
  have hsle := h.log.le
  rw [l.tip_index] at hsle
  simp only [h.log.getFirstIndex, h.log.getFirstTerm, h.log.getNextIndex htip hidx,
    Option.bind_eq_bind, Option.bind_some, Option.pure_def] at hr
  split at hr
  · -- a snapshot
    rename_i hnx
    cases hr
    refine ⟨rfl, hle, hl, l.leader, Nat.le_refl _, hsle, l.clean, ?_, ?_⟩
    · exact (h.known.of_le h.first_le_commit).mono (Ext.refl H) l.hor
    · exact (l.next server).imp (fun hlt => Nat.lt_of_lt_of_le hlt hnx) id
  · rename_i hnx
    split at hr
    · cases hr
    rename_i hpanic
    rw [Option.bind_eq_some_iff] at hr
    obtain ⟨t, ht, hr⟩ := hr
    cases hr
    rw [l.tip_index] at hpanic
    have hprev : rf.nextIndex server - 1 ≤ (H.ledger (H.cur i)).length := by omega
    refine ⟨(H.ledger (H.cur i)).length,
      { term_le := hle, leader := hl, sender := l.leader, cur := Nat.le_refl _
        base_le := hok.ledger.base_le _ l.elected, le := Nat.le_refl _, prev_le := hprev
        fresh := hfresh.imp id fun ht => (ht.trans h.cur).symm
        prevTerm := ?_, entries := ?_
        commit_le := l.commit_le hok h.known
        known := h.known.mono (Ext.refl H) l.hor }⟩
    · rcases h.log.getTerm_cases htip ht with ⟨h1, h2⟩ | ⟨_, _, h2⟩
      · show t = termAt _ (rf.nextIndex server - 1)
        rw [h1, h2]
        exact l.clean
      · show t = termAt _ (rf.nextIndex server - 1)
        rw [h2, l.path hok]
    · show (rf.log.drop _).takeD _ _ = _
      rw [l.tip_index]
      exact h.log.entries_from (l.path hok) (by omega) (by omega)

/-! ## Replies -/

/-- A request of the current term carries the log of that term. -/
theorem RaftOK.eq_cur (h : RaftOK m H i rf) {t V : Nat} (hterm : rf.currentTerm = t) (hle : t ≤ V)
    (hcur : V ≤ H.cur i) : V = H.cur i := by
  rw [← hterm, h.cur] at hle
  exact Nat.le_antisymm hcur hle

/-- `server` is known to hold the log up to `k`. -/
theorem RaftOK.matchUpTo (h : RaftOK m H i rf) (hst : rf.state = .leader) {server : Fin n}
    {k : Nat} (hcur : H.cur i ≤ H.cur server)
    (hk : k ≤ rf.commitIndex ∨ k ≤ H.base (H.cur i) ∨ k ≤ H.ack server (H.cur i)) :
    RaftOK m H i (rf.matchUpTo server k) :=
  { h with
    durable := ⟨h.durable.restored, h.durable.saved⟩
    candidate := fun hc => h.candidate hc
    leader := fun _ =>
      have l := h.leader hst
      { leader := l.leader, tip := l.tip, clean := l.clean, hor := l.hor, ack := l.ack
        done := l.done
        next := fun p => by
          by_cases hp : p = server
          · subst hp
            exact .inr hcur
          · simp only [Raft.matchUpTo, Function.update_of_ne hp]
            exact l.next p
        matched := fun p => by
          by_cases hp : p = server
          · subst hp
            simp only [Raft.matchUpTo, Function.update_self]
            rcases Nat.le_total (rf.matchIndex p) k with hle | hle
            · rw [Nat.max_eq_right hle]
              exact hk
            · rw [Nat.max_eq_left hle]
              exact l.matched p
          · simp only [Raft.matchUpTo, Function.update_of_ne hp]
            exact l.matched p } }

/-- Changing where to go on is fine for a server that has reached the leader's term. -/
theorem RaftOK.setNext (h : RaftOK m H i rf) {server : Fin n} {k : Nat}
    (hcur : H.cur i ≤ H.cur server) :
    RaftOK m H i { rf with nextIndex := Function.update rf.nextIndex server k } :=
  { h with
    durable := ⟨h.durable.restored, h.durable.saved⟩
    candidate := fun hc => h.candidate hc
    leader := fun hs =>
      have l := h.leader hs
      { leader := l.leader, tip := l.tip, clean := l.clean, hor := l.hor, ack := l.ack
        done := l.done, matched := l.matched
        next := fun p => by
          by_cases hp : p = server
          · subst hp
            exact .inr hcur
          · simp only [Function.update_of_ne hp]
            exact l.next p } }

/-- `handleInstallSnapshotRPCResponse`. -/
theorem handleInstallSnapshotRPCResponse_ok (hok : H.OK) (hidx : Indexed H)
    (h : RaftOK m H i rf) {server : Fin n} {args : InstallSnapshotArgs n} {V : Nat}
    (ha : SnapArgsOK H i server args V) {reply : InstallSnapshotReply}
    (hreply : reply.term ≤ H.cur server) :
    ∃ H', Handled m H H' i rf (rf.handleInstallSnapshotRPCResponse server args reply) := by
  rw [Raft.handleInstallSnapshotRPCResponse]
  split
  swap
  · exact ⟨H, .refl hok hidx h⟩
  rename_i hcond
  obtain ⟨hst, hterm⟩ := hcond
  have l := h.leader hst
  obtain rfl := h.eq_cur hterm ha.term_le ha.cur
  split
  · rename_i hrt
    rw [hrt, h.cur] at hreply
    -- what the snapshot covers was committed by an earlier leader, or by this one
    have hk : args.lastIncludedIndex ≤ rf.commitIndex ∨
        args.lastIncludedIndex ≤ H.base (H.cur i) ∨
        args.lastIncludedIndex ≤ H.ack server (H.cur i) := by
      rcases ha.known with h0 | ⟨T, k, hd, hk, hT⟩
      · exact .inl (by omega)
      · rcases Nat.lt_or_eq_of_le hT with hlt | rfl
        · exact .inr (.inl (Nat.le_trans hk (hok.done_complete hd hlt l.elected).1))
        · exact .inl (Nat.le_trans hk (l.done k hd))
    refine ⟨H, .refl hok hidx i, h.matchUpTo hst hreply hk, ⟨rfl, rfl, rfl, Nat.le_refl _⟩,
      fun hc => ⟨hc, rfl⟩⟩
  split
  · rename_i hgt
    rw [h.cur] at hgt
    exact ⟨_, .raise hok hidx (Nat.le_of_lt hgt), h.becomeFollower hok hgt,
      kept_becomeFollower .., nofun⟩
  · exact ⟨H, .refl hok hidx h⟩

/-! ## Committing -/

/-- The indices that the counting loop assigns, in order, all of the current term and counted. -/
theorem commitLoop_ok {me : Fin n} : ∀ {is assigned : List Nat},
    rf.commitLoop me is = some assigned → assigned.Sublist is ∧
      ∀ k ∈ assigned, rf.getTerm k = some rf.currentTerm ∧ n + 1 ≤ rf.countMatch me k * 2 := by
  intro is
  induction is with
  | nil =>
    intro assigned hr
    cases hr
    exact ⟨List.Sublist.slnil, nofun⟩
  | cons k is ih =>
    intro assigned hr
    rw [Raft.commitLoop, Option.bind_eq_bind, Option.bind_eq_some_iff] at hr
    obtain ⟨t, ht, hr⟩ := hr
    split at hr
    · rename_i heq
      split at hr
      · rename_i hcount
        rw [Option.bind_eq_bind, Option.bind_eq_some_iff] at hr
        obtain ⟨is', his', hr⟩ := hr
        cases hr
        obtain ⟨h1, h2⟩ := ih his'
        refine ⟨h1.cons_cons k, fun k' hk' => ?_⟩
        rcases List.mem_cons.1 hk' with rfl | hk'
        · exact ⟨by rw [ht, heq], hcount⟩
        · exact h2 k' hk'
      · cases hr
        exact ⟨List.nil_sublist _, nofun⟩
    · obtain ⟨h1, h2⟩ := ih hr
      exact ⟨h1.cons k, h2⟩

/-- The leader `i` appended index `k` in its term, and a majority acknowledged it. -/
def Counted (H : Chron n α) (i : Fin n) (k : Nat) : Prop :=
  H.base (H.cur i) < k ∧ k ≤ (H.ledger (H.cur i)).length ∧
    ∃ Q : Finset (Fin n), Quorum Q ∧ i ∈ Q ∧ ∀ p ∈ Q, k ≤ H.ack p (H.cur i)

/-- An index of the current term that was counted by a majority was acknowledged by one. -/
theorem RaftOK.counted (hok : H.OK) (h : RaftOK m H i rf) (hst : rf.state = .leader) {k : Nat}
    (hlt : rf.commitIndex < k) (hterm : rf.getTerm k = some rf.currentTerm)
    (hcount : n + 1 ≤ rf.countMatch i k * 2) : Counted H i k := by
  have l := h.leader hst
  have hfirst : (sentinel rf.log).index < k := Nat.lt_of_le_of_lt h.first_le_commit hlt
  -- the entry at `k` is of the current term
  obtain ⟨hk, htk⟩ : k ≤ (H.ledger (H.cur i)).length ∧
      termAt (H.ledger (H.cur i)) k = H.cur i := by
    rcases h.log.getTerm_cases (hok.tip.tip i) hterm with ⟨h1, _⟩ | ⟨_, h2, h3⟩
    · omega
    · rw [l.tip_index] at h2
      rw [l.path hok, h.cur] at h3
      exact ⟨h2, h3.symm⟩
  have hb : H.base (H.cur i) < k := by
    rcases Nat.lt_or_ge (H.base (H.cur i)) k with hb | hb
    · exact hb
    · have := hok.ledger.low _ k l.elected hb
      omega
  refine ⟨hb, hk, insert i (Finset.univ.filter fun p => p ≠ i ∧ rf.matchIndex p ≥ k), ?_,
    Finset.mem_insert_self .., fun p hp => ?_⟩
  · rw [Quorum, Fintype.card_fin, Finset.card_insert_of_notMem (by simp)]
    rw [Raft.countMatch] at hcount
    omega
  · rcases Finset.mem_insert.1 hp with rfl | hp
    · exact Nat.le_trans hk (l.ack (Nat.lt_of_lt_of_le hb hk))
    · simp only [Finset.mem_filter, Finset.mem_univ, true_and] at hp
      rcases l.matched p with hm | hm | hm
      · omega
      · omega
      · omega

/-- The last of the assigned values is the largest. -/
theorem le_getLast?_getD {l : List Nat} {d : Nat} (hl : l.Pairwise (· < ·)) {k : Nat}
    (hk : k ∈ l) : k ≤ l.getLast?.getD d := by
  have hne : l ≠ [] := List.ne_nil_of_mem hk
  rw [List.getLast?_eq_getLast_of_ne_nil hne, Option.getD_some]
  exact (hl.imp Nat.le_of_lt).rel_getLast hk

/-- The counting loop. -/
theorem advanceCommit_ok (hok : H.OK) (hidx : Indexed H) (h : RaftOK m H i rf)
    (hst : rf.state = .leader) {assigned : List Nat}
    (hr : rf.advanceCommit i = some (rf', assigned)) :
    ∃ H', Handled m H H' i rf rf' ∧ rf'.log = rf.log ∧ rf'.currentTerm = rf.currentTerm ∧
      ∀ k ∈ assigned, rf.commitIndex < k ∧ Counted H i k ∧
        EventOK m H' (.commit i rf.currentTerm k rf.log) := by
  have l := h.leader hst
  simp only [Raft.advanceCommit, h.log.getNextIndex (hok.tip.tip i) hidx, Option.bind_eq_bind,
    Option.bind_some, Option.bind_eq_some_iff, Option.pure_def, Option.some.injEq,
    Prod.mk.injEq] at hr
  obtain ⟨assigned', hloop, rfl, rfl⟩ := hr
  obtain ⟨hsub, hall⟩ := commitLoop_ok hloop
  have hsorted := List.Pairwise.sublist hsub List.pairwise_lt_range'
  have hgt : ∀ k ∈ assigned', rf.commitIndex < k := fun k hk => by
    have := (List.mem_range'_1.1 (hsub.subset hk)).1
    omega
  have hq := fun k hk => h.counted hok hst (hgt k hk) (hall k hk).1 (hall k hk).2
  have mv₁ : Moves H (H.learn i (H.cur i)) i := .learn hok hidx l.elected
  have h₁ : RaftOK m (H.learn i (H.cur i)) i rf :=
    h.learn hok (by rw [hst]; simp) fun _ => Nat.le_refl _
  have l₁ := h₁.leader hst
  have mv₂ : Moves (H.learn i (H.cur i)) ((H.learn i (H.cur i)).commit (H.cur i) assigned') i :=
    ⟨mv₁.ok.commit l₁.elected fun k hk => by
        obtain ⟨h1, h2, Q, h3, _, h4⟩ := hq k hk
        exact ⟨h1, h2, Q, h3, h4⟩,
      ext_commit, fun _ hj => frame_commit l₁.leader hj, mv₁.indexed⟩
  have e₂ := mv₂.ext
  have hhor : H.cur i ≤ (H.learn i (H.cur i)).hor i := by simp [Chronicle.learn]
  have hle : rf.commitIndex ≤ assigned'.getLast?.getD rf.commitIndex := by
    cases hlast : assigned'.getLast? with
    | none => exact Nat.le_refl _
    | some k => exact Nat.le_of_lt (hgt k (List.mem_of_getLast? hlast))
  -- first the new commits with the old `commitIndex`, which `LeaderOK.done` does not allow yet
  have hlead : LeaderOK ((H.learn i (H.cur i)).commit (H.cur i) assigned') i
      { rf with commitIndex := assigned'.getLast?.getD rf.commitIndex } :=
    { leader := l₁.leader, tip := l₁.tip, clean := l₁.clean, hor := l₁.hor, ack := l₁.ack
      next := l₁.next
      done := by
        rintro k (hd | ⟨_, hk⟩)
        · exact Nat.le_trans (l₁.done k hd) hle
        · exact le_getLast?_getD hsorted hk
      matched := fun p => (l₁.matched p).imp (fun hm => Nat.le_trans hm hle) id }
  have hnew : ∀ k, assigned'.getLast? = some k →
      ((H.learn i (H.cur i)).commit (H.cur i) assigned').done (H.cur i) k := fun k hk =>
    .inr ⟨rfl, List.mem_of_getLast? hk⟩
  refine ⟨_, ⟨mv₁.trans mv₂, ?_, ⟨rfl, rfl, rfl, hle⟩, fun hc => ?_⟩, rfl, rfl, ?_⟩
  · exact
      { cur := h.cur
        vote := h.vote
        log := h₁.log.mono e₂ (mv₁.ok.tip.tip i)
        sentinel_ok := h₁.sentinel_ok.mono mv₁.ok e₂ rfl
        spare := h.spare
        durable := ⟨h.durable.restored, h.durable.saved⟩
        first_le := h.first_le
        applied_le := Nat.le_trans h.applied_le hle
        known := by
          show Known _ _ (assigned'.getLast?.getD rf.commitIndex)
          cases hlast : assigned'.getLast? with
          | none => exact h₁.known.mono e₂ (Nat.le_refl _)
          | some k => exact .inr ⟨H.cur i, k, hnew k hlast, Nat.le_refl _, hhor⟩
        agreed := by
          show _ ∨ Agreed _ i _ (assigned'.getLast?.getD rf.commitIndex)
          cases hlast : assigned'.getLast? with
          | none => exact h₁.agreed.imp id (·.mono mv₁.ok e₂ rfl)
          | some k =>
            obtain ⟨_, hk, _⟩ := hq k (List.mem_of_getLast? hlast)
            refine .inr ⟨?_, fun _ => ⟨H.cur i, k, hnew k hlast, Nat.le_refl _, Nat.le_refl _, ?_⟩⟩
            · show k ≤ (H.tip i).index
              rw [l.tip_index]
              exact hk
            · show (H.path (H.tip i)).take k = (H.ledger (H.cur i)).take k
              rw [l.path hok]
        candidate := fun hc => by
          have hc : rf.state = .candidate := hc
          rw [hst] at hc
          cases hc
        leader := fun _ => hlead
        acked := h.acked }
  · have hc : rf.state = .candidate := hc
    rw [hst] at hc
    cases hc
  · intro k hk
    rw [h.cur]
    refine ⟨hgt k hk, hq k hk, l.leader, .inr ⟨rfl, hk⟩, (H.ledger (H.cur i)).length,
      (hq k hk).2.1, ?_⟩
    exact (l.leaderLog hok h.log).mono (mv₁.ext.trans e₂)

/-- `handleAppendEntriesRPCResponse`. -/
theorem handleAppendEntriesRPCResponse_ok (hok : H.OK) (hidx : Indexed H) (h : RaftOK m H i rf)
    {server : Fin n} {args : AppendEntriesArgs n α} {V j : Nat}
    (ha : AppendArgsOK m H i args V j) {reply : AppendEntriesReply}
    (hreply : AppendReplyOK H server args V j reply) {again : Bool} {assigned : List Nat}
    (hr : rf.handleAppendEntriesRPCResponse i server args reply = some (rf', again, assigned)) :
    ∃ H', Handled m H H' i rf rf' ∧ ∀ k ∈ assigned, rf'.currentTerm = H.cur i ∧
      rf.commitIndex < k ∧ Counted H i k ∧ EventOK m H' (.commit i rf'.currentTerm k rf'.log) := by
  rw [Raft.handleAppendEntriesRPCResponse] at hr
  split at hr
  swap
  · cases hr
    exact ⟨H, .refl hok hidx h, fun _ hk => absurd hk List.not_mem_nil⟩
  rename_i hcond
  obtain ⟨hst, hterm⟩ := hcond
  have l := h.leader hst
  obtain rfl := h.eq_cur hterm ha.term_le ha.cur
  split at hr
  · rename_i hrt
    have hcur : H.cur i ≤ H.cur server := by
      have := hreply.1
      rw [hrt, h.cur] at this
      exact this
    split at hr
    · rename_i hsucc
      rw [Option.bind_eq_bind, Option.bind_eq_some_iff] at hr
      obtain ⟨⟨rf₁, assigned₁⟩, hadv, hr⟩ := hr
      cases hr
      have hj : args.prevLogIndex + args.entries.length = j := by
        rw [ha.entries, List.length_drop, List.length_take_of_le ha.le]
        have := ha.prev_le
        omega
      rw [hj] at hadv
      have hk : j ≤ rf.commitIndex ∨ j ≤ H.base (H.cur i) ∨ j ≤ H.ack server (H.cur i) := by
        rcases Nat.lt_or_ge (H.base (H.cur i)) j with hb | hb
        · rcases hreply.2 hsucc (by rw [← hterm, h.cur]) hb with hack | ⟨k, hd, hk⟩
          · exact .inr (.inr hack)
          · exact .inl (Nat.le_trans hk (l.done k hd))
        · exact .inr (.inl hb)
      obtain ⟨H', hh, hlog, hct, hev⟩ :=
        advanceCommit_ok hok hidx (h.matchUpTo hst hcur hk) hst hadv
      refine ⟨H', ⟨hh.moves, hh.raft, ?_, hh.candidate⟩, fun k hk => ?_⟩
      · have hkept : Kept rf (rf.matchUpTo server j) := ⟨rfl, rfl, rfl, Nat.le_refl _⟩
        exact hkept.trans hh.kept
      · rw [hct, hlog]
        exact ⟨h.cur, hev k hk⟩
    · rw [Option.bind_eq_bind, Option.bind_eq_some_iff] at hr
      obtain ⟨rf₁, hback, hr⟩ := hr
      cases hr
      rw [Raft.backUp, h.log.getFirstIndex, Option.bind_eq_bind, Option.bind_some,
        Option.bind_eq_bind, Option.bind_eq_some_iff] at hback
      obtain ⟨last, _, hback⟩ := hback
      cases hback
      exact ⟨H, ⟨.refl hok hidx i, h.setNext hcur, ⟨rfl, rfl, rfl, Nat.le_refl _⟩,
        fun hc => ⟨hc, rfl⟩⟩, fun _ hk => absurd hk List.not_mem_nil⟩
  split at hr
  · rename_i hgt
    cases hr
    rw [h.cur] at hgt
    exact ⟨_, ⟨.raise hok hidx (Nat.le_of_lt hgt), h.becomeFollower hok hgt,
      kept_becomeFollower .., fun hc => by cases hc⟩, fun _ hk => absurd hk List.not_mem_nil⟩
  · cases hr
    exact ⟨H, .refl hok hidx h, fun _ hk => absurd hk List.not_mem_nil⟩

end DistLabs
