import DistLabs.Raft.Contiguous

/-!
# `AppendEntries` refines the abstract protocol

The handler finds how far its log agrees with the request (`Overlap`), and either keeps its log, or
accepts the sender's log up to the end of the request. Either way it may raise `commitIndex`, and
when the request's log was read in the term it was sent with, the answer acknowledges that log.
-/

namespace DistLabs

open Lib Chronicle

variable {n : Nat} {α : Type} {m : Mode} {H : Chron n α} {tip : Pos} {i : Fin n}
  {rf rf' : Raft n α} {V j : Nat}

/-! ## How far a log agrees with a request -/

/-- `k` is how far the log that ends at `tip`, with sentinel `s`, agrees with the first `j` entries
of the log of term `V`. -/
structure Overlap (H : Chron n α) (tip : Pos) (s : LogEntry α) (V j k : Nat) : Prop where
  first_le : s.index ≤ k
  le : k ≤ j
  le_tip : k ≤ tip.index
  agree : s.index < k → (H.path tip).take k = (H.ledger V).take k
  first : k = s.index → s.term = termAt (H.ledger V) k
  stop : k = j ∨ k < j ∧
    (k = tip.index ∨ termAt (H.path tip) (k + 1) ≠ termAt (H.ledger V) (k + 1))

/-- Equal terms past the sentinel mean equal abstract logs. -/
theorem take_eq_of_path (hok : H.OK) (htip : ValidPos H.ledger tip) {k : Nat}
    (hk : k ≤ tip.index) (hV : k ≤ (H.ledger V).length)
    (ht : termAt (H.path tip) k = termAt (H.ledger V) k) :
    (H.path tip).take k = (H.ledger V).take k := by
  rw [termAt_pathTo hk] at ht
  rw [← hok.ledger.take_eq_of_termAt_eq (Nat.le_trans hk htip.1) hV ht, Chronicle.path, pathTo,
    List.take_take, Nat.min_eq_left hk]

/-- The entries that are skipped are the overlap, when the previous entry matches. -/
theorem Skips.overlap (hok : H.OK) (hidx : Indexed H) (h : LogOK H tip rf.log)
    (htip : ValidPos H.ledger tip) (hj : j ≤ (H.ledger V).length) {prev k : Nat} (hprev : prev ≤ j)
    (hterm : rf.getTerm prev = some (termAt (H.ledger V) prev))
    (hs : Skips rf.log (((H.ledger V).take j).drop prev) (prev + 1) k) :
    Overlap H tip (sentinel rf.log) V j (prev + k) := by
  have hcases := h.getTerm_cases htip hterm
  have hfirst : (sentinel rf.log).index ≤ prev := by omega
  have hnext := h.nextOf htip
  have hend := hs.next_le
  have hle := hs.le
  rw [List.length_drop, List.length_take_of_le hj] at hle
  -- what the loop compares
  have hown : ∀ i e, prev < i → entryAt rf.log i = some e → e.term = termAt (H.path tip) i := by
    intro i e hi he
    have hlt := (bounds_of_entryAt he).2
    have hget := h.getTerm htip (i := i) (by omega) (by omega)
    rw [(h.contiguous hidx).getTerm, he] at hget
    exact Option.some.inj hget
  have hreq : ∀ q e, (((H.ledger V).take j).drop prev)[q]? = some e →
      e.term = termAt (H.ledger V) (prev + q + 1) := by
    intro q e he
    rw [List.getElem?_drop, List.getElem?_take] at he
    split at he
    · exact (termAt_of_getElem? he).symm
    · cases he
  refine ⟨by omega, by omega, by omega, fun hlt => ?_, fun heq => ?_, ?_⟩
  · refine take_eq_of_path hok htip (by omega) (by omega) ?_
    cases k with
    | zero =>
      rcases hcases with ⟨h1, _⟩ | ⟨_, _, h1⟩
      · omega
      · exact h1.symm
    | succ q =>
      obtain ⟨e, e', he, he', ht⟩ := hs.held q (Nat.lt_succ_self q)
      have h1 := hown _ e (by omega) he
      have h2 := hreq q e' he'
      rw [show prev + 1 + q = prev + (q + 1) by omega] at h1
      rw [← h1, ht, h2]
      rfl
  · obtain rfl : k = 0 := by omega
    rcases hcases with ⟨_, h1⟩ | ⟨h1, _⟩
    · exact h1.symm
    · omega
  · rcases Nat.lt_or_eq_of_le hle with hlt | rfl
    · refine .inr ⟨by omega, ?_⟩
      rcases Nat.lt_or_ge (prev + k) tip.index with hlt' | hge
      · right
        obtain ⟨e, he⟩ : ∃ e, entryAt rf.log (prev + 1 + k) = some e :=
          exists_entryAt (by omega) (by omega)
        have hlen : k < (((H.ledger V).take j).drop prev).length := by
          rw [List.length_drop, List.length_take_of_le hj]
          exact hlt
        have he' := List.getElem?_eq_getElem hlen
        have hne := hs.stop e _ he he'
        rw [hown _ e (by omega) he, hreq k _ he', show prev + 1 + k = prev + k + 1 by omega] at hne
        exact hne
      · exact .inl (by omega)
    · exact .inl (by omega)

/-- The loop finds the overlap, when the previous entry matches. -/
theorem overlap_of_skipMatched (hok : H.OK) (hidx : Indexed H) (h : LogOK H tip rf.log)
    (htip : ValidPos H.ledger tip) (hj : j ≤ (H.ledger V).length) {prev ins : Nat}
    {rest : List (LogEntry α)} (hprev : prev ≤ j)
    (hterm : rf.getTerm prev = some (termAt (H.ledger V) prev))
    (hr : rf.skipMatched (((H.ledger V).take j).drop prev) (prev + 1) = some (ins, rest)) :
    ∃ k, ins = k + 1 ∧ Overlap H tip (sentinel rf.log) V j k ∧
      rest = ((H.ledger V).take j).drop k := by
  have hcont := h.contiguous hidx
  obtain ⟨hfirst, hlast⟩ := hcont.bounds_of_getTerm hterm
  obtain ⟨k, hr', hs⟩ := hcont.exists_skipMatched (((H.ledger V).take j).drop prev)
    (Nat.le_succ_of_le hfirst) hlast
  rw [hr'] at hr
  cases hr
  exact ⟨prev + k, Nat.succ_add .., hs.overlap hok hidx h htip hj hprev hterm, List.drop_drop⟩

/-- A log that stops agreeing before the end of the request does not extend the request. -/
theorem Overlap.not_extends {s : LogEntry α} {k : Nat} (o : Overlap H tip s V j k)
    (htip : ValidPos H.ledger tip) (hj : j ≤ (H.ledger V).length) (hk : k < j) :
    ¬ (H.ledger V).take j <+: H.path tip := by
  intro hp
  have hlen : ((H.ledger V).take j).length = j := List.length_take_of_le hj
  have hle := hp.length_le
  rw [hlen, htip.length_pathTo] at hle
  rcases o.stop with heq | ⟨_, heq | hne⟩
  · omega
  · omega
  · have := take_of_prefix hp (i := k + 1) (by rw [hlen]; omega)
    rw [List.take_take, Nat.min_eq_left (by omega)] at this
    exact hne (termAt_congr this (Nat.le_refl _))

/-- What a server takes to be committed in the log of `V` lies within the overlap. -/
theorem Overlap.le_of_take_eq {s : LogEntry α} {k c : Nat} (o : Overlap H tip s V j k)
    (hc : c ≤ tip.index) (ht : (H.path tip).take c = (H.ledger V).take c) : k = j ∨ c ≤ k := by
  rcases o.stop with heq | ⟨_, heq | hne⟩
  · exact .inl heq
  · exact .inr (by omega)
  · refine .inr (Nat.le_of_not_lt fun hlt => hne ?_)
    exact termAt_congr ht hlt

/-! ## Overwriting -/

/-- Accepting entries is a move, if the log gets longer or was in conflict with them. -/
theorem Moves.accept (hok : H.OK) (hidx : Indexed H) (hV : H.Elected V) (hcur : H.cur i ≤ V)
    (hj : j ≤ (H.ledger V).length)
    (hcase : (H.tip i).index ≤ j ∨ H.base V ≤ j ∧ ¬ (H.ledger V).take j <+: H.path (H.tip i)) :
    Moves H (H.accept i V j) i :=
  ⟨hok.accept hV hcur hj hcase, ext_accept, fun _ hj => frame_accept hj, hidx⟩

/-- Learning of an elected term is a move. -/
theorem Moves.learn (hok : H.OK) (hidx : Indexed H) (hV : H.Elected V) :
    Moves H (H.learn i V) i :=
  ⟨hok.learn hV, ext_learn, fun _ hj => frame_learn hj, hidx⟩

/-- Hearing of a term concerns followers, and leaders of that term. -/
theorem RaftOK.learn (hok : H.OK) (h : RaftOK m H i rf) (hcand : rf.state ≠ .candidate)
    (hlead : rf.state = .leader → V ≤ H.cur i) : RaftOK m (H.learn i V) i rf := by
  have e : Ext H (H.learn i V) := ext_learn
  exact
    { cur := h.cur
      vote := h.vote
      log := h.log.mono e (hok.tip.tip i)
      sentinel_ok := h.sentinel_ok.mono hok e rfl
      spare := h.spare
      durable := h.durable
      first_le := h.first_le
      applied_le := h.applied_le
      known := h.known.mono e (e.hor i)
      agreed := h.agreed.imp id (·.mono hok e rfl)
      candidate := fun hs => absurd hs hcand
      leader := fun hs =>
        have l := h.leader hs
        { leader := l.leader, tip := l.tip, clean := l.clean, ack := l.ack, done := l.done
          next := l.next, matched := l.matched
          hor := by
            show (H.learn i V).hor i ≤ H.cur i
            simp only [Chronicle.learn, Function.update_self]
            exact Nat.max_le.2 ⟨l.hor, hlead hs⟩ }
      acked := h.acked }

/-- Raising `commitIndex` to something known to be committed. -/
theorem RaftOK.commitTo (h : RaftOK m H i rf) {c : Nat} (hle : rf.commitIndex ≤ c)
    (hk : Known H (H.hor i) c) (ha : m.staleSend ∨ Agreed H i (sentinel rf.log).index c) :
    RaftOK m H i { rf with commitIndex := c } :=
  { h with
    durable := ⟨h.durable.restored, h.durable.saved⟩
    applied_le := Nat.le_trans h.applied_le hle
    known := hk
    agreed := ha
    leader := fun hs =>
      have l := h.leader hs
      { leader := l.leader, tip := l.tip, clean := l.clean, hor := l.hor, ack := l.ack
        next := l.next
        done := fun k hd => Nat.le_trans (l.done k hd) hle
        matched := fun p => (l.matched p).imp (fun hm => Nat.le_trans hm hle) id } }

/-- The log after overwriting. -/
theorem LogOK.overwrite (hok : H.OK) (h : LogOK H tip rf.log)
    (hj : j ≤ (H.ledger V).length) {k g : Nat} (o : Overlap H tip (sentinel rf.log) V j k)
    (hk : k < j) :
    LogOK H (posAt (H.ledger V) j)
      (rf.appendAt (k + 1 - (sentinel rf.log).index) (((H.ledger V).take j).drop k) g).log ∧
    sentinel (rf.appendAt (k + 1 - (sentinel rf.log).index) (((H.ledger V).take j).drop k) g).log =
      sentinel rf.log := by
  have hfirst := o.first_le
  have hpath : H.path (posAt (H.ledger V) j) = (H.ledger V).take j := hok.ledger.pathTo_posAt hj
  have hkept : ((H.path tip).take k).drop (sentinel rf.log).index =
      (((H.ledger V).take j).take k).drop (sentinel rf.log).index := by
    rw [List.take_take, Nat.min_eq_left o.le]
    rcases Nat.lt_or_eq_of_le hfirst with hlt | heq
    · rw [o.agree hlt]
    · have : ∀ l : List (LogEntry α), (l.take k).drop (sentinel rf.log).index = [] := fun l =>
        List.drop_eq_nil_iff.2 (by rw [List.length_take]; omega)
      rw [this, this]
  have heq : (rf.appendAt (k + 1 - (sentinel rf.log).index)
      (((H.ledger V).take j).drop k) g).log =
      sentinel rf.log :: ((H.ledger V).take j).drop (sentinel rf.log).index := by
    simp only [Raft.appendAt]
    rw [h.take (by omega), Nat.add_sub_cancel, hkept, List.cons_append]
    congr 1
    conv_rhs => rw [← List.take_append_drop k ((H.ledger V).take j)]
    rw [List.drop_append_of_le_length]
    rw [List.length_take, List.length_take_of_le hj]
    omega
  have hs : sentinel (rf.appendAt (k + 1 - (sentinel rf.log).index)
      (((H.ledger V).take j).drop k) g).log = sentinel rf.log := by rw [heq]; rfl
  refine ⟨⟨?_, ?_, ?_, ?_, ?_⟩, hs⟩
  · rw [hs, hpath]
    exact heq
  · rw [hs]
    exact h.command
  · rw [hs]
    exact h.valid
  · rw [hs]
    exact Nat.le_trans hfirst o.le
  · rw [hs]
    intro hji
    have : (sentinel rf.log).index = j := hji
    omega

/-- The sentinel after overwriting. -/
theorem SentinelOK.overwrite (hok : H.OK) {s : LogEntry α} (h : SentinelOK m H i s)
    (hj : j ≤ (H.ledger V).length) {k : Nat} (o : Overlap H (H.tip i) s V j k) :
    SentinelOK m (H.accept i V j) i s := by
  have e : Ext H (H.accept i V j) := ext_accept
  have hpath : (H.accept i V j).path ((H.accept i V j).tip i) = (H.ledger V).take j := by
    simp only [Chronicle.accept, Function.update_self]
    exact hok.ledger.pathTo_posAt hj
  have hsj : s.index ≤ j := Nat.le_trans o.first_le o.le
  rcases Nat.lt_or_eq_of_le o.first_le with hlt | heq
  · rcases h with h | ⟨hm, T, c, hd, hc, hs, hT, hcase⟩
    · left
      rw [hpath, termAt_take hsj, h]
      exact termAt_congr (o.agree hlt) (Nat.le_of_lt hlt)
    · exact .inr ⟨hm, T, c, hd, hc, hs, Nat.le_trans hT (e.hor i), hcase⟩
  · left
    rw [hpath, termAt_take hsj, heq]
    exact o.first heq.symm

/-- What is taken to be committed after overwriting. -/
theorem Agreed.overwrite (hok : H.OK) {s : LogEntry α} {c : Nat} (h : Agreed H i s.index c)
    (hj : j ≤ (H.ledger V).length) {k : Nat} (o : Overlap H (H.tip i) s V j k) (hk : k < j)
    (hV : H.Elected V) (hcur : H.cur i = V) : Agreed (H.accept i V j) i s.index c := by
  have htip : (H.accept i V j).tip i = posAt (H.ledger V) j := Function.update_self ..
  have hpath : (H.accept i V j).path ((H.accept i V j).tip i) = (H.ledger V).take j := by
    rw [htip]
    exact hok.ledger.pathTo_posAt hj
  -- what was committed before is in the log of `V`
  have hpre : s.index < c → c ≤ k ∧ ∃ T c', H.done T c' ∧ c ≤ c' ∧ T ≤ V ∧
      (H.ledger V).take c = (H.ledger T).take c := by
    intro hlt
    obtain ⟨T, c', hd, hc, hT, heq⟩ := h.done hlt
    rw [hcur] at hT
    have hVT := take_congr (hok.done_le hd hT hV).2 hc
    refine ⟨?_, T, c', hd, hc, hT, hVT⟩
    rcases o.le_of_take_eq h.le (heq.trans hVT.symm) with hkj | hle
    · omega
    · exact hle
  have hle : c ≤ k := by
    rcases Nat.lt_or_ge s.index c with hlt | hge
    · exact (hpre hlt).1
    · exact Nat.le_trans hge o.first_le
  refine ⟨?_, fun hlt => ?_⟩
  · rw [htip]
    exact Nat.le_trans hle o.le
  · obtain ⟨_, T, c', hd, hc, hT, heq⟩ := hpre hlt
    refine ⟨T, c', hd, hc, ?_, ?_⟩
    · show T ≤ H.cur i
      omega
    · rw [hpath, List.take_take, Nat.min_eq_left (Nat.le_trans hle o.le)]
      exact heq

/-- A follower accepts the sender's log up to the end of the request. -/
theorem RaftOK.overwrite (hok : H.OK) (hidx : Indexed H) (h : RaftOK m H i rf)
    (hst : rf.state = .follower) (hV : H.Elected V) (hcur : m.staleSend ∨ H.cur i = V)
    (hj : j ≤ (H.ledger V).length) {k g : Nat}
    (o : Overlap H (H.tip i) (sentinel rf.log) V j k) (hk : k < j) :
    RaftOK m (H.accept i V j) i
      (rf.appendAt (k + 1 - (sentinel rf.log).index)
        (((H.ledger V).take j).drop k) g).persist := by
  have e : Ext H (H.accept i V j) := ext_accept
  have htip : (H.accept i V j).tip i = posAt (H.ledger V) j := Function.update_self ..
  obtain ⟨hlog, hs⟩ := h.log.overwrite hok hj o hk (g := g)
  have hs : sentinel (rf.appendAt (k + 1 - (sentinel rf.log).index)
    (((H.ledger V).take j).drop k) g).persist.log = sentinel rf.log := hs
  have hlen := h.log.length (hok.tip.tip i)
  have h1 := o.first_le
  have h2 := o.le_tip
  exact
    { cur := h.cur
      vote := h.vote
      log := by
        rw [htip]
        exact hlog.mono e (hok.ledger.validPos_posAt hj)
      sentinel_ok := by
        rw [hs]
        exact h.sentinel_ok.overwrite hok hj o
      spare := spareOK_appendAt hok hidx h.log h.spare (by omega) (by omega)
      durable := durable_persist _
      first_le := by
        rw [hs]
        exact h.first_le
      applied_le := h.applied_le
      known := h.known.mono e (e.hor i)
      agreed := by
        rw [hs]
        rcases hcur with hm | hcur
        · exact .inl hm
        · exact h.agreed.imp id (·.overwrite hok hj o hk hV hcur)
      candidate := fun hc => by
        have hc : rf.state = .candidate := hc
        rw [hst] at hc
        cases hc
      leader := fun hc => by
        have hc : rf.state = .leader := hc
        rw [hst] at hc
        cases hc
      acked := h.acked_save _ }

/-! ## Acknowledging -/

/-- A term other than 0 was saved. -/
theorem RaftOK.current_saved (h : RaftOK m H i rf) (h0 : H.cur i ≠ 0) :
    rf.encodeState ∈ rf.persister.saves := by
  have hr := h.durable.restored
  cases hst : rf.persister.raftstate with
  | none =>
    rw [Persister.restored, hst] at hr
    have := congrArg HardState.currentTerm hr
    rw [Raft.encodeState, h.cur] at this
    exact absurd this.symm h0
  | some hs =>
    rw [Persister.restored, hst] at hr
    rw [← hr]
    exact h.durable.saved hs hst

/-- A log that agrees with the log of `V` holds the entries of term `V`. -/
theorem LogOK.holdsAt (hok : H.OK) (hidx : Indexed H) (h : LogOK H tip rf.log)
    (htip : ValidPos H.ledger tip) (hV : H.Elected V) (hj : j ≤ (H.ledger V).length)
    (hjt : j ≤ tip.index) (ht : (H.path tip).take j = (H.ledger V).take j) {k : Nat}
    (hb : H.base V < k) (hk : k ≤ j) : HoldsAt rf.log k V := by
  rcases Nat.lt_or_ge (sentinel rf.log).index k with hlt | hge
  · obtain ⟨e, he, hp, hterm⟩ := h.exists_entry htip hlt (Nat.le_trans hk hjt)
    refine .inl ⟨e, List.mem_of_getElem? he, ?_, ?_⟩
    · rw [hidx.path hp]
      omega
    · rw [hterm, termAt_congr ht hk, hok.ledger.own V k hV hb (Nat.le_trans hk hj)]
  · exact .inr hge

/-- Acknowledging what is in the log is a move. -/
theorem Moves.acknowledge (hok : H.OK) (hidx : Indexed H)
    (hm : j ≤ (H.ledger (H.cur i)).length) (hle : (⟨H.cur i, j⟩ : Pos) ≤ H.tip i) :
    Moves H (H.acknowledge i j) i :=
  ⟨hok.acknowledge hm hle, ext_acknowledge, fun _ hj => frame_acknowledge hj, hidx⟩

/-- A follower acknowledges what it has saved. -/
theorem RaftOK.acknowledge (hok : H.OK) (h : RaftOK m H i rf) (hst : rf.state = .follower)
    (hheld : ∀ k, H.base (H.cur i) < k → k ≤ j →
      ∃ hs ∈ rf.persister.saves, hs.currentTerm = H.cur i ∧ HoldsAt hs.log k (H.cur i)) :
    RaftOK m (H.acknowledge i j) i rf := by
  have e : Ext H (H.acknowledge i j) := ext_acknowledge
  exact
    { cur := h.cur
      vote := h.vote
      log := h.log.mono e (hok.tip.tip i)
      sentinel_ok := h.sentinel_ok
      spare := h.spare
      durable := h.durable
      first_le := h.first_le
      applied_le := h.applied_le
      known := h.known
      agreed := h.agreed.imp id (·.mono hok e rfl)
      candidate := fun hc => by rw [hst] at hc; cases hc
      leader := fun hc => by rw [hst] at hc; cases hc
      acked := fun T k hb ha => by
        by_cases hT : T = H.cur i
        · subst hT
          simp only [Chronicle.acknowledge, update₂_self] at ha
          rcases le_max_iff.1 ha with ha | ha
          · exact h.acked _ k hb ha
          · exact hheld k hb ha
        · rw [Chronicle.acknowledge] at ha
          simp only [update₂_of_ne (show ¬ (i = i ∧ T = H.cur i) from fun hc => hT hc.2)] at ha
          exact h.acked T k hb ha }

/-- The answer of a follower whose log agrees with the first `j` entries of the log of `V`: it
acknowledges them if `V` is its term. The entries at and below a snapshot that conflicts with the
log are committed already. -/
theorem RaftOK.answer (hok : H.OK) (hidx : Indexed H) (h : RaftOK m H i rf)
    (hst : rf.state = .follower) (hV : H.Elected V) (hj : j ≤ (H.ledger V).length)
    (hjt : j ≤ (H.tip i).index)
    (hagree : (sentinel rf.log).index < j → (H.path (H.tip i)).take j = (H.ledger V).take j)
    (hfirst : j = (sentinel rf.log).index → (sentinel rf.log).term = termAt (H.ledger V) j)
    (hle : (sentinel rf.log).index ≤ j) :
    ∃ H', Moves H H' i ∧ RaftOK m H' i rf ∧ H'.cur i = H.cur i ∧
      (V = H.cur i → H.base V < j → j ≤ H'.ack i V ∨ ∃ k, H'.done V k ∧ j ≤ k) := by
  by_cases hcase : V = H.cur i ∧ H.base V < j
  swap
  · exact ⟨H, .refl hok hidx i, h, rfl, fun h1 h2 => absurd ⟨h1, h2⟩ hcase⟩
  obtain ⟨rfl, hb⟩ := hcase
  have htip := hok.tip.tip i
  have hown : termAt (H.ledger (H.cur i)) j = H.cur i := hok.ledger.own _ j hV hb hj
  have h0 : H.cur i ≠ 0 := fun h0 => hV (by rw [h0]; exact hok.ledger.zero)
  -- an agreeing log is acknowledged
  have hack : (H.path (H.tip i)).take j = (H.ledger (H.cur i)).take j →
      ∃ H', Moves H H' i ∧ RaftOK m H' i rf ∧ H'.cur i = H.cur i ∧
        (H.cur i = H.cur i → H.base (H.cur i) < j →
          j ≤ H'.ack i (H.cur i) ∨ ∃ k, H'.done (H.cur i) k ∧ j ≤ k) := by
    intro ht
    have ht' : (H.ledger (H.tip i).term).take j = (H.ledger (H.cur i)).take j := by
      rw [← ht, Chronicle.path, pathTo, List.take_take, Nat.min_eq_left hjt]
    refine ⟨H.acknowledge i j,
      .acknowledge hok hidx hj (hok.ledger.le_of_take_eq htip hown hjt ht'),
      h.acknowledge hok hst fun k hbk hk => ⟨rf.encodeState, h.current_saved h0, h.cur,
        h.log.holdsAt hok hidx htip hV hj hjt ht hbk hk⟩, rfl, fun _ _ => .inl ?_⟩
    simp only [Chronicle.acknowledge, update₂_self]
    exact Nat.le_max_right ..
  rcases Nat.lt_or_eq_of_le hle with hlt | heq
  · exact hack (hagree hlt)
  · have hs := hfirst heq.symm
    rcases h.sentinel_ok with hclean | ⟨_, T, k, hd, hk, hsT, _, hT⟩
    · refine hack (take_eq_of_path hok htip hjt hj ?_)
      rw [← hs, hclean, heq]
    · -- the term that committed the snapshot is the current one
      obtain ⟨hel, _, hlen⟩ := hok.ack.done_range T k hd
      have hterm : (sentinel rf.log).term = H.cur i := hs.trans hown
      have hTle := hok.ledger.termAt_le hel (Nat.le_trans hk hlen)
      rw [← hsT, hterm] at hTle
      have hTeq : T = H.cur i := by omega
      subst hTeq
      exact ⟨H, .refl hok hidx i, h, rfl, fun _ _ => .inr ⟨k, hd, by omega⟩⟩

/-! ## The handler -/

/-- Following the leader's `commitIndex` within the log. -/
theorem followCommit_eq {last lc : Nat} (hle : lc ≤ last) :
    rf.followCommit last lc = { rf with commitIndex := max rf.commitIndex lc } := by
  rw [Raft.followCommit]
  split
  · rename_i hgt
    rw [Nat.min_eq_right hle, Nat.max_eq_right (Nat.le_of_lt hgt)]
  · rename_i hge
    rw [Nat.max_eq_left (Nat.le_of_not_lt hge)]

/-- Following the `commitIndex` of a leader whose log the own log agrees with. -/
theorem RaftOK.followCommit (hok : H.OK) (h : RaftOK m H i rf) {lc last : Nat}
    (hV : H.Elected V) (hVcur : m.staleSend ∨ H.cur i = V) (hhor : V ≤ H.hor i)
    (hlc : lc ≤ j) (hjt : j ≤ (H.tip i).index) (hlast : j ≤ last)
    (hk : Known H V lc)
    (hagree : (sentinel rf.log).index < j → (H.path (H.tip i)).take j = (H.ledger V).take j) :
    RaftOK m H i (rf.followCommit last lc) := by
  rw [followCommit_eq (Nat.le_trans hlc hlast)]
  rcases Nat.le_total lc rf.commitIndex with hle | hle
  · rw [Nat.max_eq_left hle]
    exact h
  · rw [Nat.max_eq_right hle]
    refine h.commitTo hle (hk.mono (Ext.refl H) hhor) ?_
    rcases hVcur with hm | hcur
    · exact .inl hm
    · refine .inr ⟨Nat.le_trans hlc hjt, fun hlt => ?_⟩
      rcases hk with h0 | ⟨T, k, hd, hlk, hT⟩
      · omega
      · refine ⟨T, k, hd, hlk, by omega, ?_⟩
        rw [take_congr (hagree (Nat.lt_of_lt_of_le hlt hlc)) hlc]
        exact take_congr (hok.done_le hd hT hV).2 hlk

/-- What the handlers of requests guarantee of the receiving server. -/
structure Handled (m : Mode) (H H' : Chron n α) (i : Fin n) (rf rf' : Raft n α) : Prop where
  moves : Moves H H' i
  raft : RaftOK m H' i rf'
  kept : Kept rf rf'
  candidate : rf'.state = .candidate → rf.state = .candidate ∧ H'.cur i = H.cur i

/-- A request that is refused changes nothing. -/
theorem Handled.refl (hok : H.OK) (hidx : Indexed H) (h : RaftOK m H i rf) :
    Handled m H H i rf rf :=
  ⟨.refl hok hidx i, h, .refl rf, fun hs => ⟨hs, rfl⟩⟩

/-- Following the commit index and saving do not interfere. -/
theorem followCommit_persist (rf : Raft n α) (last lc : Nat) :
    (rf.followCommit last lc).persist = rf.persist.followCommit last lc := by
  have hci : rf.persist.commitIndex = rf.commitIndex := rfl
  rw [Raft.followCommit, Raft.followCommit, hci]
  split <;> rfl

/-- Following the commit index keeps the snapshot and what was applied. -/
theorem kept_followCommit {last lc : Nat} (hle : lc ≤ last) :
    Kept rf (rf.followCommit last lc) := by
  rw [followCommit_eq hle]
  exact ⟨rfl, rfl, rfl, Nat.le_max_left ..⟩

/-- The end of the successful branch: a follower whose log agrees with the request follows the
leader's `commitIndex` and answers. -/
theorem RaftOK.follow (hok : H.OK) (hidx : Indexed H) (h : RaftOK m H i rf)
    (hst : rf.state = .follower) {l : Fin n} {args : AppendEntriesArgs n α}
    (ha : AppendArgsOK m H l args V j) (hcur : H.cur i = args.term) (hhor : V ≤ H.hor i)
    (hjt : j ≤ (H.tip i).index)
    (hagree : (sentinel rf.log).index < j → (H.path (H.tip i)).take j = (H.ledger V).take j)
    (hfirst : j = (sentinel rf.log).index → (sentinel rf.log).term = termAt (H.ledger V) j)
    (hle : (sentinel rf.log).index ≤ j) :
    ∃ H', Handled m H H' i rf (rf.followCommit (H.tip i).index args.leaderCommit) ∧
      AppendReplyOK H' i args V j { term := args.term, success := true } := by
  have hV : H.Elected V := elected_of_leader ha.sender
  have hVcur : m.staleSend ∨ H.cur i = V := ha.fresh.imp id fun hf => by rw [hf, hcur]
  have hlast : args.leaderCommit ≤ (H.tip i).index := Nat.le_trans ha.commit_le hjt
  have h₁ := h.followCommit hok hV hVcur hhor ha.commit_le hjt hjt ha.known hagree
  have hst₁ : (rf.followCommit (H.tip i).index args.leaderCommit).state = .follower := by
    rw [followCommit_eq hlast]
    exact hst
  have hlog : (rf.followCommit (H.tip i).index args.leaderCommit).log = rf.log := by
    rw [followCommit_eq hlast]
  obtain ⟨H', mv, h₂, hcur', hans⟩ := h₁.answer hok hidx hst₁ hV ha.le hjt
    (by rw [hlog]; exact hagree) (by rw [hlog]; exact hfirst) (by rw [hlog]; exact hle)
  refine ⟨H', ⟨mv, h₂, kept_followCommit hlast, fun hc => by rw [hst₁] at hc; cases hc⟩,
    by rw [hcur', hcur], fun _ hVt hb => ?_⟩
  rw [mv.ext.base V hV] at hb
  exact hans (hVt.trans hcur.symm) hb

/-- The branch of `AppendEntries` in which the previous entry matches. -/
theorem storeEntries_ok (hok : H.OK) (hidx : Indexed H) (h : RaftOK m H i rf)
    (hst : rf.state = .follower) {l : Fin n} {args : AppendEntriesArgs n α}
    (ha : AppendArgsOK m H l args V j) (hcur : H.cur i = args.term) {g : Nat}
    (hterm : rf.getTerm args.prevLogIndex = some args.prevLogTerm) {reply : AppendEntriesReply}
    (hr : rf.storeEntries args (sentinel rf.log).index g = some (rf', reply)) :
    ∃ H', Handled m H H' i rf rf' ∧ AppendReplyOK H' i args V j reply := by
  have htip := hok.tip.tip i
  have hV : H.Elected V := elected_of_leader ha.sender
  have hcurV : H.cur i ≤ V := by rw [hcur]; exact ha.term_le
  simp only [Raft.storeEntries, Option.bind_eq_bind, Option.bind_eq_some_iff, Prod.exists,
    Option.pure_def, Option.some.injEq, Prod.mk.injEq] at hr
  obtain ⟨ins, rest, hskip, next, hnext, rfl, rfl⟩ := hr
  rw [ha.entries] at hskip
  rw [ha.prevTerm] at hterm
  obtain ⟨k, rfl, o, rfl⟩ :=
    overlap_of_skipMatched hok hidx h.log htip ha.le ha.prev_le hterm hskip
  have hempty : ((H.ledger V).take j).drop k = [] ↔ k = j := by
    rw [List.drop_eq_nil_iff, List.length_take_of_le ha.le]
    have := o.le
    omega
  rw [h.cur, hcur]
  by_cases hkj : k = j
  · -- nothing to write: the server only hears of term `V`
    subst hkj
    have mv : Moves H (H.learn i V) i := .learn hok hidx hV
    have h₁ : RaftOK m (H.learn i V) i rf :=
      h.learn hok (by rw [hst]; simp) (by rw [hst]; simp)
    rw [Raft.overwrite, if_pos (hempty.2 rfl)] at hnext ⊢
    rw [if_pos (hempty.2 rfl)]
    rw [h.log.getNextIndex htip hidx] at hnext
    cases hnext
    obtain ⟨H', hh, hreply⟩ := h₁.follow mv.ok hidx hst (ha.mono mv.ext) hcur
      (by simp [Chronicle.learn]) o.le_tip o.agree o.first o.first_le
    exact ⟨H', ⟨mv.trans hh.moves, hh.raft, hh.kept, hh.candidate⟩, hreply⟩
  · have hlt : k < j := Nat.lt_of_le_of_ne o.le hkj
    have mv : Moves H (H.accept i V j) i :=
      .accept hok hidx hV hcurV ha.le (.inr ⟨ha.base_le, o.not_extends htip ha.le hlt⟩)
    have h₁ := h.overwrite hok hidx hst hV (ha.fresh.imp id fun hf => by rw [hf, hcur]) ha.le
      (g := g) o hlt
    have hkept : Kept rf (rf.appendAt (k + 1 - (sentinel rf.log).index)
        (((H.ledger V).take j).drop k) g).persist :=
      ⟨(h.log.overwrite hok ha.le (g := g) o hlt).2, rfl, rfl, Nat.le_refl _⟩
    have htip₁ : (H.accept i V j).tip i = posAt (H.ledger V) j := Function.update_self ..
    have hpath₁ : (H.accept i V j).path ((H.accept i V j).tip i) = (H.ledger V).take j := by
      rw [htip₁]
      exact hok.ledger.pathTo_posAt ha.le
    rw [Raft.overwrite, if_neg (mt hempty.1 hkj)] at hnext ⊢
    rw [if_neg (mt hempty.1 hkj), followCommit_persist]
    have hnext₁ := h₁.log.getNextIndex (mv.ok.tip.tip i) mv.indexed
    have hn : next = ((H.accept i V j).tip i).index + 1 :=
      Option.some.inj (hnext.symm.trans hnext₁)
    rw [hn, Nat.add_sub_cancel]
    have hfl : (sentinel rf.log).index < j := Nat.lt_of_le_of_lt o.first_le hlt
    obtain ⟨H', hh, hreply⟩ := h₁.follow mv.ok mv.indexed hst (ha.mono mv.ext) hcur
      (by simp [Chronicle.accept]) (by rw [htip₁]; exact Nat.le_refl _)
      (fun _ => by rw [hpath₁, List.take_take, Nat.min_self]; rfl)
      (fun heq => by rw [hkept.first] at heq; omega)
      (by rw [hkept.first]; exact Nat.le_of_lt hfl)
    exact ⟨H', ⟨mv.trans hh.moves, hh.raft, hkept.trans hh.kept, hh.candidate⟩, hreply⟩

/-- `AppendEntries` on a request of the current term. -/
theorem receiveEntries_ok (hok : H.OK) (hidx : Indexed H) (h : RaftOK m H i rf)
    (hst : rf.state = .follower) {l : Fin n} {args : AppendEntriesArgs n α}
    (ha : AppendArgsOK m H l args V j) (hcur : H.cur i = args.term) {g : Nat}
    {reply : AppendEntriesReply} (hr : rf.receiveEntries args g = some (rf', reply)) :
    ∃ H', Handled m H H' i rf rf' ∧ AppendReplyOK H' i args V j reply := by
  -- a rejection changes nothing
  have hrej : ∀ r : AppendEntriesReply, r.term ≤ H.cur i → r.success = false →
      ∃ H', Handled m H H' i rf rf ∧ AppendReplyOK H' i args V j r := fun r h1 h2 =>
    ⟨H, .refl hok hidx h, h1, fun hs => by rw [h2] at hs; cases hs⟩
  have htip := hok.tip.tip i
  simp only [Raft.receiveEntries, h.log.getFirstIndex, h.log.getNextIndex htip hidx,
    Option.bind_eq_bind, Option.bind_some, Option.pure_def] at hr
  split at hr
  · cases hr
    exact hrej _ (Nat.zero_le _) rfl
  split at hr
  · cases hr
    exact hrej _ (Nat.le_of_eq h.cur) rfl
  rw [Option.bind_eq_some_iff] at hr
  obtain ⟨t, ht, hr⟩ := hr
  split at hr
  · rename_i hpt
    rw [← hpt] at ht
    exact storeEntries_ok hok hidx h hst ha hcur ht hr
  · rw [Option.bind_eq_some_iff] at hr
    obtain ⟨_, _, hr⟩ := hr
    cases hr
    exact hrej _ (Nat.le_of_eq h.cur) rfl

/-- `AppendEntries`. -/
theorem appendEntries_ok (hok : H.OK) (hidx : Indexed H) (h : RaftOK m H i rf) {l : Fin n}
    {args : AppendEntriesArgs n α} (ha : AppendArgsOK m H l args V j) {g : Nat}
    {reply : AppendEntriesReply} (hr : rf.appendEntries args g = some (rf', reply)) :
    ∃ H', Handled m H H' i rf rf' ∧ AppendReplyOK H' i args V j reply := by
  have mv : Moves H (H.raise i (max (H.cur i) args.term)) i :=
    .raise hok hidx (Nat.le_max_left ..)
  have h₁ := h.stepDown hok args.term
  rw [Raft.appendEntries] at hr
  split at hr
  · cases hr
    exact ⟨H, .refl hok hidx h, Nat.zero_le _, fun hs => absurd hs Bool.false_ne_true⟩
  split at hr
  · cases hr
    refine ⟨_, ⟨mv, h₁, kept_stepDown .., fun hs => ?_⟩, Nat.le_of_eq h₁.cur,
      fun hs => absurd hs Bool.false_ne_true⟩
    obtain ⟨h2, h3⟩ := stepDown_candidate hs
    rw [h.cur] at h3
    rw [Nat.max_eq_left h3]
    exact ⟨h2, Function.update_self ..⟩
  · rename_i hterm
    rw [not_not, h₁.cur] at hterm
    obtain ⟨H', hh, hreply⟩ := receiveEntries_ok mv.ok mv.indexed h₁.toFollower rfl
      (ha.mono mv.ext) hterm.symm hr
    refine ⟨H', ⟨mv.trans hh.moves, hh.raft, ?_, fun hs => ?_⟩, hreply⟩
    · exact ((kept_stepDown rf args.term).trans (kept_toFollower _)).trans hh.kept
    · cases (hh.candidate hs).1

end DistLabs
