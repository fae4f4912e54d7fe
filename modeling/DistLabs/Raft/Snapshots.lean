import DistLabs.Raft.Leaders

/-!
# Snapshots, applying and restarting

`Snapshot`, `InstallSnapshot`, the batches of `apply` and `Make` against the chronicle. A local
snapshot and a restart change nothing there. `InstallSnapshot` accepts the sender's log up to the
snapshot when the own log is not longer; else it keeps the own log, whose part above the snapshot
may conflict with it.
-/

namespace DistLabs

open Lib Chronicle

variable {n : Nat} {α : Type} {m : Mode} {H : Chron n α} {i : Fin n} {rf rf' : Raft n α}

/-! ## `Snapshot` -/

/-- The log after `Snapshot`. -/
theorem LogOK.compact (hok : H.OK) (hidx : Indexed H) {tip : Pos} (htip : ValidPos H.ledger tip)
    (h : LogOK H tip rf.log) {index : Nat} {e : LogEntry α} {es : List (LogEntry α)}
    (hlt : (sentinel rf.log).index < index)
    (hdrop : rf.log.drop (index - (sentinel rf.log).index) = e :: es) :
    e.index = index ∧ e.term = termAt (H.path tip) index ∧
      LogOK H tip ({ e with command := none } :: es) := by
  rw [h.drop hlt] at hdrop
  obtain ⟨hget, hes⟩ := drop_eq_cons hdrop
  rw [Nat.sub_add_cancel (by omega)] at hes
  have hle : index ≤ tip.index := by
    have := (List.getElem?_eq_some_iff.1 hget).1
    rw [htip.length_pathTo] at this
    omega
  have hi : e.index = index := by
    rw [hidx.path hget]
    omega
  have ht : e.term = termAt (H.path tip) index := by
    rw [← termAt_of_getElem? hget, Nat.sub_add_cancel (by omega)]
  have hpos : LogEntry.pos ({ e with command := none } : LogEntry α) =
      posAt (H.ledger tip.term) index := by
    rw [LogEntry.pos, posAt, ← termAt_pathTo hle, ← Chronicle.path, ← ht, ← hi]
  refine ⟨hi, ht, ?_, rfl, ?_, ?_, ?_⟩
  · show _ = { e with command := none } :: (H.path tip).drop e.index
    rw [hi, hes]
  · show ValidPos H.ledger (LogEntry.pos ({ e with command := none } : LogEntry α))
    rw [hpos]
    exact hok.ledger.validPos_posAt (Nat.le_trans hle htip.1)
  · show e.index ≤ _
    rw [hi]
    exact hle
  · show e.index = _ → tip = LogEntry.pos ({ e with command := none } : LogEntry α)
    intro heq
    rw [hpos, ← hi, heq, posAt, htip.2]

/-- `Snapshot`, called with an index that was applied. -/
theorem snapshot_ok (hok : H.OK) (hidx : Indexed H) (h : RaftOK m H i rf) {index g : Nat}
    {b : Bytes} (hi : index ≤ rf.lastApplied) (hr : rf.snapshot index b g = some rf') :
    RaftOK m H i rf' ∧ rf'.lastApplied = rf.lastApplied ∧ rf'.commitIndex = rf.commitIndex ∧
      rf'.state = rf.state ∧
      (rf' = rf ∨ (sentinel rf.log).index < index ∧ (sentinel rf'.log).index = index ∧
        rf'.persister.snapshot = b) := by
  simp only [Raft.snapshot, h.log.getFirstIndex, Option.bind_eq_bind, Option.bind_some,
    Option.pure_def] at hr
  split at hr
  · cases hr
    exact ⟨h, rfl, rfl, rfl, .inl rfl⟩
  rename_i hlt
  split at hr
  · cases hr
  split at hr
  · cases hr
  rename_i e es hdrop
  cases hr
  have htip := hok.tip.tip i
  obtain ⟨hei, het, hlog⟩ := h.log.compact hok hidx htip (Nat.lt_of_not_le hlt) hdrop
  refine ⟨?_, rfl, rfl, rfl, .inr ⟨Nat.lt_of_not_le hlt, hei, rfl⟩⟩
  exact
    { cur := h.cur
      vote := h.vote
      log := hlog
      sentinel_ok := .inl (by
        show e.term = termAt _ e.index
        rw [hei]
        exact het)
      spare := spareOK_replicate _ _ _
      durable := durable_save rfl
      first_le := by
        show e.index ≤ _
        rw [hei]
        exact hi
      applied_le := h.applied_le
      known := h.known
      agreed := h.agreed.imp id fun a => ⟨a.le, fun hc => a.done (by
        have hc : e.index < rf.commitIndex := hc
        omega)⟩
      candidate := h.candidate
      leader := fun hs =>
        have l := h.leader hs
        { leader := l.leader, tip := l.tip, hor := l.hor, ack := l.ack, done := l.done
          next := l.next, matched := l.matched
          clean := by
            show e.term = termAt _ e.index
            rw [hei, het, l.path hok] }
      acked := h.acked_save _ }

/-! ## `InstallSnapshot` -/

/-- What `InstallSnapshot` guarantees of the receiving server. -/
structure Installed (m : Mode) (H H' : Chron n α) (i : Fin n) (rf rf' : Raft n α) : Prop where
  moves : Moves H H' i
  raft : RaftOK m H' i rf'
  applied_le : rf.lastApplied ≤ rf'.lastApplied
  commit_le : rf.commitIndex ≤ rf'.commitIndex
  candidate : rf'.state = .candidate → rf.state = .candidate ∧ H'.cur i = H.cur i

/-- A server whose log is not longer than the snapshot accepts the sender's log up to it. -/
theorem RaftOK.replaceLog (hok : H.OK) (h : RaftOK m H i rf) (hst : rf.state = .follower)
    {l : Fin n} {args : InstallSnapshotArgs n} {V : Nat} (ha : SnapArgsOK H l i args V) :
    RaftOK m (H.accept i V args.lastIncludedIndex) i (rf.replaceLog args [] []) := by
  have e : Ext H (H.accept i V args.lastIncludedIndex) := ext_accept
  have hV : H.Elected V := elected_of_leader ha.sender
  have htip : (H.accept i V args.lastIncludedIndex).tip i =
      posAt (H.ledger V) args.lastIncludedIndex := Function.update_self ..
  have hpos : posAt (H.ledger V) args.lastIncludedIndex =
      ⟨args.lastIncludedTerm, args.lastIncludedIndex⟩ := by rw [posAt, ha.lastTerm]
  have hvalid := hok.ledger.validPos_posAt ha.le
  have hhor : V ≤ (H.accept i V args.lastIncludedIndex).hor i := by simp [Chronicle.accept]
  exact
    { cur := h.cur
      vote := h.vote
      log := by
        rw [htip]
        refine LogOK.mono e hvalid ⟨?_, rfl, ?_, Nat.le_refl _, fun _ => hpos⟩
        · have hdrop : (H.path (posAt (H.ledger V) args.lastIncludedIndex)).drop
              args.lastIncludedIndex = [] :=
            List.drop_eq_nil_iff.2 (Nat.le_of_eq hvalid.length_pathTo)
          show _ = _ :: (H.path _).drop args.lastIncludedIndex
          rw [hdrop]
          rfl
        · show ValidPos H.ledger ⟨args.lastIncludedTerm, args.lastIncludedIndex⟩
          rw [← hpos]
          exact hvalid
      sentinel_ok := by
        left
        rw [htip, hpos]
        rw [hpos] at hvalid
        exact (hvalid.2.symm.trans (termAt_pathTo (Nat.le_refl _)).symm :)
      spare := spareOK_nil _ _
      durable := durable_save rfl
      first_le := Nat.le_refl _
      applied_le := Nat.le_refl _
      known := ha.known.mono e hhor
      agreed := .inr ⟨by rw [htip]; exact Nat.le_refl _, fun hlt => absurd hlt (Nat.lt_irrefl _)⟩
      candidate := fun hc => by
        have hc : rf.state = .candidate := hc
        rw [hst] at hc
        cases hc
      leader := fun hc => by
        have hc : rf.state = .leader := hc
        rw [hst] at hc
        cases hc
      acked := h.acked_save _ }

/-- The snapshot that replaces the lower part of a longer log stands for something committed, in a
term that the server has reached or in the snapshot's own. -/
theorem SnapArgsOK.sentinel_ok (hok : H.OK) {l : Fin n} {args : InstallSnapshotArgs n} {V : Nat}
    (ha : SnapArgsOK H l i args V) (hpos : 0 < args.lastIncludedIndex) :
    ∃ T k, H.done T k ∧ args.lastIncludedIndex ≤ k ∧
      args.lastIncludedTerm = termAt (H.ledger T) args.lastIncludedIndex ∧ T ≤ V ∧
      (T ≤ H.cur i ∨ args.lastIncludedTerm = T) := by
  have hV : H.Elected V := elected_of_leader ha.sender
  obtain ⟨T, k, hd, hk, hT⟩ := ha.known.resolve_left (by omega)
  have hterm : args.lastIncludedTerm = termAt (H.ledger T) args.lastIncludedIndex := by
    rw [ha.lastTerm]
    exact termAt_congr (hok.done_le hd hT hV).2 hk
  refine ⟨T, k, hd, hk, hterm, hT, ?_⟩
  rcases ha.fresh with hb | hle
  · -- an entry of term `V`, so the term that committed it is `V`
    have hown := hok.ledger.own V _ hV hb ha.le
    rw [← ha.lastTerm] at hown
    obtain ⟨hel, _, hlen⟩ := hok.ack.done_range T k hd
    have := hok.ledger.termAt_le hel (Nat.le_trans hk hlen)
    rw [← hterm, hown] at this
    exact .inr (by omega)
  · exact .inl (Nat.le_trans hT hle)

/-- A server with a longer log keeps the part above the snapshot. -/
theorem RaftOK.keepSuffix (hok : H.OK) (h : RaftOK m H i rf) (hst : rf.state = .follower)
    {l : Fin n} {args : InstallSnapshotArgs n} {V : Nat} (ha : SnapArgsOK H l i args V)
    (hci : rf.commitIndex < args.lastIncludedIndex)
    (hlast : args.lastIncludedIndex < (H.tip i).index)
    (hclean : m.conflictInstall ∨
      rf.getTerm args.lastIncludedIndex = some args.lastIncludedTerm) (g : Nat) :
    RaftOK m (H.learn i V) i (rf.replaceLog args ((H.path (H.tip i)).drop args.lastIncludedIndex)
      (List.replicate g .zero)) := by
  have e : Ext H (H.learn i V) := ext_learn
  have hV : H.Elected V := elected_of_leader ha.sender
  have htip := hok.tip.tip i
  have hhor : V ≤ (H.learn i V).hor i := by simp [Chronicle.learn]
  have hfirst : (sentinel rf.log).index < args.lastIncludedIndex :=
    Nat.lt_of_le_of_lt h.first_le_commit hci
  have hvalid : ValidPos H.ledger ⟨args.lastIncludedTerm, args.lastIncludedIndex⟩ := by
    rw [ha.lastTerm]
    exact hok.ledger.validPos_posAt ha.le
  exact
    { cur := h.cur
      vote := h.vote
      log := by
        refine LogOK.mono e htip ⟨rfl, rfl, hvalid, Nat.le_of_lt hlast, fun heq => ?_⟩
        have heq : args.lastIncludedIndex = (H.tip i).index := heq
        omega
      sentinel_ok := by
        rcases hclean with hm | ht
        · obtain ⟨T, k, hd, hk, hterm, hT, hcase⟩ := ha.sentinel_ok hok (by omega)
          exact .inr ⟨hm, T, k, hd, hk, hterm, Nat.le_trans hT hhor, hcase⟩
        · left
          rcases h.log.getTerm_cases htip ht with ⟨h1, _⟩ | ⟨_, _, h1⟩
          · omega
          · exact h1
      spare := spareOK_replicate _ _ _
      durable := durable_save rfl
      first_le := Nat.le_refl _
      applied_le := Nat.le_refl _
      known := ha.known.mono e hhor
      agreed := .inr ⟨Nat.le_of_lt hlast, fun hlt => absurd hlt (Nat.lt_irrefl _)⟩
      candidate := fun hc => by
        have hc : rf.state = .candidate := hc
        rw [hst] at hc
        cases hc
      leader := fun hc => by
        have hc : rf.state = .leader := hc
        rw [hst] at hc
        cases hc
      acked := h.acked_save _ }

/-- The message that `InstallSnapshot` sends, and what it did before. -/
def SnapshotSent (args : InstallSnapshotArgs n) (rf rf' : Raft n α) : Option (ApplyMsg α) → Prop
  | none => Kept rf rf'
  | some msg =>
    msg = .snapshot args.snapshot args.lastIncludedTerm args.lastIncludedIndex ∧
      rf.commitIndex < args.lastIncludedIndex ∧
      rf'.commitIndex = args.lastIncludedIndex ∧ rf'.lastApplied = args.lastIncludedIndex ∧
      (sentinel rf'.log).index = args.lastIncludedIndex ∧ rf'.persister.snapshot = args.snapshot

/-- `InstallSnapshot` on a request of the current term. -/
theorem receiveSnapshot_ok (hok : H.OK) (hidx : Indexed H) (h : RaftOK m H i rf)
    (hst : rf.state = .follower) {l : Fin n} {args : InstallSnapshotArgs n} {V : Nat}
    (ha : SnapArgsOK H l i args V) (hcur : H.cur i = args.term)
    (hclean : m.conflictInstall ∨ (rf.commitIndex < args.lastIncludedIndex →
      args.lastIncludedIndex < (H.tip i).index →
      rf.getTerm args.lastIncludedIndex = some args.lastIncludedTerm)) {g : Nat}
    {msg : Option (ApplyMsg α)} (hr : rf.receiveSnapshot args g = some (rf', msg)) :
    ∃ H', Installed m H H' i rf rf' ∧ H'.cur i = H.cur i ∧ SnapshotSent args rf rf' msg := by
  have htip := hok.tip.tip i
  have hV : H.Elected V := elected_of_leader ha.sender
  have hnext := h.log.nextOf htip
  have hfirst := h.first_le_commit
  have hnc : ∀ {es sp : List (LogEntry α)}, (rf.replaceLog args es sp).state ≠ .candidate := by
    intro es sp hc
    have hc : rf.state = .candidate := hc
    rw [hst] at hc
    cases hc
  obtain ⟨_, _, hr', hrep⟩ := (h.log.contiguous hidx).exists_receiveSnapshot hfirst args g
  rw [hr] at hr'
  cases hr'
  cases hrep with
  | known =>
    exact ⟨H, ⟨.refl hok hidx i, h, Nat.le_refl _, Nat.le_refl _, fun hc => ⟨hc, rfl⟩⟩, rfl,
      .refl rf⟩
  | whole hci hlast =>
    refine ⟨_, ⟨.accept hok hidx hV (by rw [hcur]; exact ha.term_le) ha.le (.inl (by omega)),
      h.replaceLog hok hst ha, Nat.le_trans h.applied_le (Nat.le_of_lt hci), Nat.le_of_lt hci,
      fun hc => absurd hc hnc⟩, rfl, rfl, hci, rfl, rfl, rfl, rfl⟩
  | suffix g hci hlast =>
    have hlast : args.lastIncludedIndex < (H.tip i).index := by omega
    rw [h.log.drop (by omega), Nat.add_sub_cancel]
    exact ⟨_, ⟨.learn hok hidx hV,
      h.keepSuffix hok hst ha hci hlast (hclean.imp id fun hc => hc hci hlast) g,
      Nat.le_trans h.applied_le (Nat.le_of_lt hci), Nat.le_of_lt hci, fun hc => absurd hc hnc⟩,
      rfl, rfl, hci, rfl, rfl, rfl, rfl⟩

/-- `InstallSnapshot`. -/
theorem installSnapshot_ok (hok : H.OK) (hidx : Indexed H) (h : RaftOK m H i rf) {l : Fin n}
    {args : InstallSnapshotArgs n} {V : Nat} (ha : SnapArgsOK H l i args V)
    (hclean : m.conflictInstall ∨ (rf.state ≠ .dead → rf.currentTerm ≤ args.term →
      rf.commitIndex < args.lastIncludedIndex → args.lastIncludedIndex < (H.tip i).index →
      rf.getTerm args.lastIncludedIndex = some args.lastIncludedTerm)) {g : Nat}
    {reply : InstallSnapshotReply} {msg : Option (ApplyMsg α)}
    (hr : rf.installSnapshot args g = some (rf', reply, msg)) :
    ∃ H', Installed m H H' i rf rf' ∧ reply.term ≤ H'.cur i ∧ SnapshotSent args rf rf' msg := by
  have mv : Moves H (H.raise i (max (H.cur i) args.term)) i :=
    .raise hok hidx (Nat.le_max_left ..)
  have h₁ := h.stepDown hok args.term
  have hkept := kept_stepDown rf args.term
  rw [Raft.installSnapshot] at hr
  split at hr
  · cases hr
    exact ⟨H, ⟨.refl hok hidx i, h, Nat.le_refl _, Nat.le_refl _, fun hc => ⟨hc, rfl⟩⟩,
      Nat.zero_le _, .refl rf⟩
  rename_i hdead
  split at hr
  · cases hr
    refine ⟨_, ⟨mv, h₁, Nat.le_of_eq hkept.lastApplied.symm, hkept.commit_le, fun hs => ?_⟩,
      Nat.le_of_eq h₁.cur, hkept⟩
    obtain ⟨h2, h3⟩ := stepDown_candidate hs
    rw [h.cur] at h3
    rw [Nat.max_eq_left h3]
    exact ⟨h2, Function.update_self ..⟩
  · rename_i hterm
    rw [not_not, h₁.cur] at hterm
    rw [Option.bind_eq_bind, Option.bind_eq_some_iff] at hr
    obtain ⟨⟨rf₁, msg₁⟩, hrec, hr⟩ := hr
    cases hr
    have hcurle : rf.currentTerm ≤ args.term := by
      rw [h.cur, hterm]
      exact mv.ext.cur i
    have hci : (rf.stepDown args.term).toFollower.commitIndex = rf.commitIndex :=
      stepDown_commitIndex ..
    have hget : ∀ k, (rf.stepDown args.term).toFollower.getTerm k = rf.getTerm k := by
      intro k
      rw [Raft.stepDown]
      split <;> rfl
    obtain ⟨H', hi, hcur', hsent⟩ := receiveSnapshot_ok mv.ok mv.indexed h₁.toFollower rfl
      (ha.mono mv.ext) hterm.symm
      (hclean.imp id fun hc => by rw [hci, hget]; exact hc hdead hcurle) hrec
    have hk := hkept.trans (kept_toFollower (rf.stepDown args.term))
    refine ⟨H', ⟨mv.trans hi.moves, hi.raft, ?_, ?_, fun hs => ?_⟩, ?_, ?_⟩
    · rw [← hk.lastApplied]
      exact hi.applied_le
    · rw [← hci]
      exact hi.commit_le
    · cases (hi.candidate hs).1
    · rw [hcur', h₁.cur]
    · cases msg with
      | none => exact hk.trans hsent
      | some msg =>
        obtain ⟨h2, h3, h4⟩ := hsent
        rw [hci] at h3
        exact ⟨h2, h3, h4⟩

/-! ## Applying -/

/-- The critical section of `apply`. -/
theorem takeBatch_ok (hok : H.OK) (hidx : Indexed H) (h : RaftOK m H i rf)
    {batch : List (LogEntry α)} (hr : rf.takeBatch = some (rf', batch)) :
    RaftOK m H i rf' ∧ rf' = { rf with lastApplied := rf.commitIndex } ∧
      ∀ e ∈ batch, SentOK m H e ∧ e.index ≤ rf.commitIndex := by
  have htip := hok.tip.tip i
  simp only [Raft.takeBatch, h.log.getFirstIndex, Option.bind_eq_bind, Option.bind_some,
    Option.pure_def] at hr
  split at hr
  · cases hr
  rename_i hlt
  have hlt : rf.lastApplied < rf.commitIndex := Nat.lt_of_not_le hlt
  split at hr
  · cases hr
  split at hr
  · cases hr
  cases hr
  rw [Nat.max_eq_right h.applied_le]
  refine ⟨{ h with
    durable := ⟨h.durable.restored, h.durable.saved⟩
    first_le := h.first_le_commit
    applied_le := Nat.le_refl _
    leader := fun hs =>
      have l := h.leader hs
      ⟨l.leader, l.tip, l.clean, l.hor, l.ack, l.done, l.next, l.matched⟩ }, rfl, ?_⟩
  intro e he
  have hfl := h.first_le
  -- the cell that `e` was read from
  obtain ⟨t, ht⟩ := List.getElem?_of_mem he
  rw [List.getElem?_take] at ht
  split at ht
  swap
  · cases ht
  rename_i htlt
  rw [List.getElem?_drop, show rf.lastApplied + 1 - (sentinel rf.log).index + t =
    (rf.lastApplied - (sentinel rf.log).index + t) + 1 by omega] at ht
  have hcell := cell_ok hok hidx h.log h.spare ht
  refine ⟨⟨hcell.imp id And.right, h.agreed.imp id fun a => ?_⟩, ?_⟩
  · -- nothing past the end of the log is read
    obtain ⟨T, k, hd, hk, _, heq⟩ := a.done (by omega)
    have hale := a.le
    have hlen := h.log.length htip
    rw [List.getElem?_append_left (by omega), h.log.getElem?_succ] at ht
    have hi := hidx.path ht
    refine ⟨T, k, hd, by omega, by omega, ?_⟩
    have := congrArg (·[e.index - 1]?) heq
    simp only [List.getElem?_take, if_pos (show e.index - 1 < rf.commitIndex by omega)] at this
    rw [← this, hi, Nat.add_sub_cancel, ht]
  · rcases hcell with rfl | ⟨hi, _⟩
    · exact Nat.zero_le _
    · omega

/-! ## Restarting -/

/-- `Make` restores what `Durable` says was saved. -/
theorem make_eq (hok : H.OK) (hidx : Indexed H) (h : RaftOK m H i rf) (g : Nat) :
    ∃ spare, (spare = [] ∨ spare = List.replicate g .zero) ∧
      Raft.make rf.persister g = some
        { rf with
          spare, state := .follower
          commitIndex := (sentinel rf.log).index, lastApplied := (sentinel rf.log).index
          nextIndex := fun _ => (H.tip i).index + 1, matchIndex := fun _ => 0 } := by
  have htip := hok.tip.tip i
  have hr := h.durable.restored
  cases hst : rf.persister.raftstate with
  | none =>
    rw [Persister.restored, hst] at hr
    have hct : rf.currentTerm = 0 := (congrArg HardState.currentTerm hr).symm
    have hvf : rf.voteFor = none := (congrArg HardState.voteFor hr).symm
    have hlog : rf.log = [.zero] := (congrArg HardState.log hr).symm
    have hfirst := h.log.getFirstIndex
    have hnext := h.log.getNextIndex htip hidx
    simp only [Raft.getFirstIndex, Raft.getNextIndex, Raft.getLastIndex, hlog] at hfirst hnext
    refine ⟨[], .inl rfl, ?_⟩
    simp only [Raft.make, hst, Raft.getFirstIndex, Raft.getNextIndex, Raft.getLastIndex, hfirst,
      hnext, hct, hvf, hlog, Option.bind_eq_bind, Option.bind_some, Option.pure_def]
  | some hs =>
    rw [Persister.restored, hst] at hr
    have hct : hs.currentTerm = rf.currentTerm := congrArg HardState.currentTerm hr
    have hvf : hs.voteFor = rf.voteFor := congrArg HardState.voteFor hr
    have hlog : hs.log = rf.log := congrArg HardState.log hr
    have hfirst := h.log.getFirstIndex
    have hnext := h.log.getNextIndex htip hidx
    simp only [Raft.getFirstIndex, Raft.getNextIndex, Raft.getLastIndex] at hfirst hnext
    refine ⟨List.replicate g .zero, .inr rfl, ?_⟩
    simp only [Raft.make, hst, Raft.getFirstIndex, Raft.getNextIndex, Raft.getLastIndex, hct, hvf,
      hlog, hfirst, hnext, Option.bind_eq_bind, Option.bind_some, Option.pure_def]

/-- The `Raft` value after a restart. -/
theorem make_ok (hok : H.OK) (hidx : Indexed H) (h : RaftOK m H i rf) {g : Nat}
    (hr : Raft.make rf.persister g = some rf') :
    RaftOK m H i rf' ∧ rf'.log = rf.log ∧ rf'.persister = rf.persister ∧
      rf'.state = .follower := by
  obtain ⟨spare, hspare, hmake⟩ := make_eq hok hidx h g
  rw [hmake] at hr
  cases hr
  refine ⟨?_, rfl, rfl, rfl⟩
  exact
    { cur := h.cur
      vote := h.vote
      log := h.log
      sentinel_ok := h.sentinel_ok
      spare := by
        rcases hspare with rfl | rfl
        · exact spareOK_nil _ _
        · exact spareOK_replicate _ _ _
      durable := ⟨h.durable.restored, h.durable.saved⟩
      first_le := Nat.le_refl _
      applied_le := Nat.le_refl _
      known := h.known.of_le h.first_le_commit
      agreed := .inr ⟨h.log.le, fun hlt => absurd hlt (Nat.lt_irrefl _)⟩
      candidate := nofun
      leader := nofun
      acked := h.acked }

end DistLabs
