import DistLabs.Lib.ChronicleSteps

/-!
# The steps of a chronicle: replication

The leader appends, a server accepts a leader's log, learns of a later term, acknowledges, and the
leader commits. `accept` is the only step in which a server's last position may move back; its
precondition is what keeps acknowledged positions (`CoreOK.held`): the log it takes over is at
least as long as its own, or reaches past the leader's start and is not already contained in its
own.
-/

namespace DistLabs.Lib.Chronicle

variable {ι ε : Type} [DecidableEq ι]

/-! ## Appending -/

/-- The leader `c` appends `e` to the log of its term and acknowledges it itself. -/
def append (H : Chronicle ι ε) (c : ι) (e : ε) : Chronicle ι ε :=
  { H with
    ledger := Function.update H.ledger (H.cur c) (H.ledger (H.cur c) ++ [e])
    tip := Function.update H.tip c ⟨H.cur c, (H.ledger (H.cur c)).length + 1⟩
    hor := Function.update H.hor c (max (H.hor c) (H.cur c))
    ack := update₂ H.ack c (H.cur c) ((H.ledger (H.cur c)).length + 1) }

section
variable [Fintype ι] {H : Chronicle ι ε} {c : ι} {e : ε}

/-- A leader that appends continues the history. -/
theorem ext_append (h : H.AckOK) : Ext H (H.append c e) := by
  refine { Ext.refl H with ledger := ?_, hor := ?_, ack := ?_ }
  · intro U
    by_cases hU : U = H.cur c
    · subst hU
      simp [append]
    · simp [append, hU]
  · intro p
    by_cases hp : p = c
    · subst hp
      simp [append]
    · simp [append, hp]
  · intro p T
    by_cases heq : p = c ∧ T = H.cur c
    · obtain ⟨rfl, rfl⟩ := heq
      simpa [append] using Nat.le_succ_of_le (h.ack_le p _)
    · simp [append, update₂_of_ne heq]

omit [Fintype ι] in
/-- A leader that appends changes nothing for the other servers. -/
theorem frame_append (hl : H.leader (H.cur c) = some c) {j : ι} (hj : j ≠ c) :
    Frame H (H.append c e) j := by
  refine { Frame.refl H j with tip := ?_, hor := ?_, ack := ?_, ledger := ?_ }
  · simp [append, hj]
  · simp [append, hj]
  · funext T
    exact update₂_of_ne (by simp [hj])
  · intro hlj
    have : H.cur j ≠ H.cur c := by
      intro heq
      rw [heq, hl] at hlj
      exact hj (Option.some.inj hlj).symm
    simp [append, this]

variable [HasTerm ε]

/-- Appending an entry of the leader's term extends the tree. -/
theorem OK.append_ledger (h : H.OK) (hl : H.leader (H.cur c) = some c)
    (he : HasTerm.term e = H.cur c) :
    LedgerOK (H.append c e).leader (H.append c e).ledger (H.append c e).base := by
  have hel : H.leader (H.cur c) ≠ none := by rw [hl]; simp
  have hext := ext_append (c := c) (e := e) h.ack
  have hbase := h.ledger.base_le _ hel
  -- terms of the extended log
  have hnew : ∀ {i}, i ≤ (H.ledger (H.cur c)).length + 1 →
      i ≤ (H.ledger (H.cur c)).length ∨ i = (H.ledger (H.cur c)).length + 1 := by
    intro i hi
    omega
  constructor
  · exact h.ledger.zero
  · intro V hV
    have : V ≠ H.cur c := by
      rintro rfl
      exact hel hV
    simp only [Chronicle.append, Function.update_of_ne this]
    exact h.ledger.nil V hV
  · intro V hV
    exact Nat.le_trans (h.ledger.base_le V hV) (hext.length V)
  · intro V i hV hb hi
    by_cases hVc : V = H.cur c
    · subst hVc
      simp only [Chronicle.append, Function.update_self, List.length_append, List.length_singleton]
        at hb hi ⊢
      rcases hnew hi with hi' | rfl
      · rw [termAt_append hi']
        exact h.ledger.own _ i hV hb hi'
      · rw [termAt_append_singleton, he]
    · simp only [Chronicle.append, Function.update_of_ne hVc] at hb hi ⊢
      exact h.ledger.own V i hV hb hi
  · intro V i hV hb
    have hb' : i ≤ H.base V := hb
    rw [hext.termAt (Nat.le_trans hb' (h.ledger.base_le V hV))]
    exact h.ledger.low V i hV hb'
  · intro V i hi
    by_cases hVi : i ≤ (H.ledger V).length
    · have ht := h.ledger.tree V i hVi
      have hs := length_of_take_eq ht hVi
      rw [hext.termAt hVi, hext.take hVi, hext.take hs]
      exact ht
    · -- only the appended entry is new
      have hVc : V = H.cur c := by
        by_contra hne
        simp only [Chronicle.append, Function.update_of_ne hne] at hi
        exact hVi hi
      subst hVc
      simp only [Chronicle.append, Function.update_self, List.length_append, List.length_singleton]
        at hi
      obtain rfl : i = (H.ledger (H.cur c)).length + 1 := by omega
      simp only [Chronicle.append, Function.update_self]
      rw [termAt_append_singleton, he, Function.update_self]
  · intro V i j hij hj
    by_cases hVj : j ≤ (H.ledger V).length
    · rw [hext.termAt hVj, hext.termAt (Nat.le_trans hij hVj)]
      exact h.ledger.mono V i j hij hVj
    · have hVc : V = H.cur c := by
        by_contra hne
        simp only [Chronicle.append, Function.update_of_ne hne] at hj
        exact hVj hj
      subst hVc
      simp only [Chronicle.append, Function.update_self, List.length_append, List.length_singleton]
        at hj ⊢
      obtain rfl : j = (H.ledger (H.cur c)).length + 1 := by omega
      rw [termAt_append_singleton, he]
      rcases hnew hij with hi' | rfl
      · rw [termAt_append hi']
        exact h.ledger.termAt_le hel hi'
      · rw [termAt_append_singleton, he]

/-- Nobody but the leader can have acknowledged what it just appended, so the new position is
choosable only while no later leader exists. -/
theorem OK.append_not_elected (h : H.OK) {T i W : Nat} (hc : (H.append c e).Choosable T i)
    (hi : ¬ i ≤ (H.ledger T).length) (hT : T = H.cur c) (hTW : T < W) : ¬ H.Elected W := by
  intro hW
  subst hT
  obtain ⟨l, hl⟩ := Option.ne_none_iff_exists'.1 hW
  obtain ⟨R, hR, hv⟩ := h.vote.quorum W l hl
  obtain ⟨Q, hQ, hq⟩ := hc
  obtain ⟨p, hp, hp'⟩ := hQ.inter hR
  have hcurp := h.vote.vote_le p W l (hv p hp')
  rcases hq p hp with ha | ha
  · by_cases hpc : p = c
    · subst hpc
      omega
    · simp only [Chronicle.append, update₂_of_ne (show ¬ (p = c ∧ H.cur c = H.cur c) by
        simp [hpc])] at ha
      have := h.ack.ack_le p (H.cur c)
      omega
  · have ha' : H.cur p ≤ H.cur c := ha
    omega

/-- Appending keeps the invariant. -/
theorem OK.append (h : H.OK) (hl : H.leader (H.cur c) = some c) (he : HasTerm.term e = H.cur c) :
    (H.append c e).OK := by
  have hel : H.leader (H.cur c) ≠ none := by rw [hl]; simp
  have hext := ext_append (c := c) (e := e) h.ack
  have hlok := h.append_ledger hl he
  have hch : ∀ {T i}, (H.append c e).Choosable T i → H.Choosable T i := by
    refine fun hc => hc.of_cur_le (fun _ => Nat.le_refl _) fun q ha => ?_
    rename_i T i
    by_cases heq : q = c ∧ T = H.cur c
    · obtain ⟨rfl, rfl⟩ := heq
      exact .inr (Nat.le_refl _)
    · simp only [Chronicle.append, update₂_of_ne heq] at ha
      exact .inl ha
  refine { ledger := hlok
           vote := ⟨h.vote.vote_le, h.vote.vote_req, h.vote.req_le, h.vote.quorum, h.vote.req_hor⟩
           tip := ?_, ack := ?_, core := ?_ }
  · refine ⟨?_, ?_, ?_, ?_⟩
    · intro p
      by_cases hp : p = c
      · subst hp
        simp only [Chronicle.append, Function.update_self]
        refine ⟨by simp, ?_⟩
        simp only [Function.update_self]
        rw [termAt_append_singleton, he]
      · simp only [Chronicle.append, Function.update_of_ne hp]
        exact hext.validPos (h.tip.tip p)
    · intro p
      by_cases hp : p = c
      · subst hp
        simp [Chronicle.append]
      · simp only [Chronicle.append, Function.update_of_ne hp]
        exact h.tip.tip_hor p
    · intro p
      by_cases hp : p = c
      · subst hp
        simp only [Chronicle.append, Function.update_self]
        rcases Nat.le_total (H.hor p) (H.cur p) with hle | hle
        · rw [Nat.max_eq_right hle]
          exact .inr hel
        · rw [Nat.max_eq_left hle]
          exact h.tip.hor p
      · simp only [Chronicle.append, Function.update_of_ne hp]
        exact h.tip.hor p
    · intro d U z k hd
      obtain ⟨h1, h2⟩ := h.tip.req d U z k hd
      exact ⟨hext.validPos h1, h2⟩
  · refine ⟨?_, ?_, ?_, ?_⟩
    · intro p T
      by_cases heq : p = c ∧ T = H.cur c
      · obtain ⟨rfl, rfl⟩ := heq
        simp [Chronicle.append]
      · simp only [Chronicle.append, update₂_of_ne heq]
        exact Nat.le_trans (h.ack.ack_le p T) (hext.length T)
    · intro p T ha
      by_cases heq : p = c ∧ T = H.cur c
      · obtain ⟨rfl, rfl⟩ := heq
        exact Nat.le_refl _
      · simp only [Chronicle.append, update₂_of_ne heq] at ha
        exact h.ack.ack_cur p T ha
    · intro T i hd
      obtain ⟨h1, h2, h3⟩ := h.ack.done_range T i hd
      exact ⟨h1, h2, Nat.le_trans h3 (hext.length T)⟩
    · intro T i hd
      obtain ⟨Q, hQ, hq⟩ := h.ack.done_quorum T i hd
      exact ⟨Q, hQ, fun p hp => Nat.le_trans (hq p hp) (hext.ack p T)⟩
  · refine ⟨?_, ?_, ?_⟩
    · intro T i W hc hb hi hT hW
      by_cases hTi : i ≤ (H.ledger T).length
      · obtain ⟨h1, h2⟩ := h.core.complete T i W (hch hc) hb hTi hT hW
        refine ⟨h1, ?_⟩
        rw [hext.take hTi, hext.take (Nat.le_trans h1 (h.ledger.base_le W hW)), h2]
      · have hTc : T = H.cur c := by
          by_contra hne
          simp only [Chronicle.append, Function.update_of_ne hne] at hi
          exact hTi hi
        exact absurd hW (h.append_not_elected hc hTi hTc hT)
    · intro p T i hc hb ha
      by_cases hp : p = c
      · subst hp
        simp only [Chronicle.append, Function.update_self]
        by_cases hTc : T = H.cur p
        · subst hTc
          simp only [Chronicle.append, update₂_self] at ha
          exact .inr ⟨rfl, ha⟩
        · simp only [Chronicle.append, update₂_of_ne (show ¬ (p = p ∧ T = H.cur p) by
            simp [hTc])] at ha
          have hb' : H.base T < i := hb
          have := h.ack.ack_cur p T (by omega)
          exact .inl (by simp only; omega)
      · simp only [Chronicle.append, Function.update_of_ne hp, update₂_of_ne
          (show ¬ (p = c ∧ T = H.cur c) by simp [hp])] at ha ⊢
        exact h.core.held p T i (hch hc) hb ha
    · intro p d U z k T i hp hd hT hc hb ha
      refine h.core.asked p d U z k T i hp hd hT (hch hc) hb ?_
      have hU := h.vote.vote_le p U d hp
      by_cases heq : p = c ∧ T = H.cur c
      · obtain ⟨rfl, rfl⟩ := heq
        omega
      · simpa only [Chronicle.append, update₂_of_ne heq] using ha

end

/-! ## Accepting and learning -/

/-- Server `p` takes over the first `j` entries of the log of term `V`. -/
def accept (H : Chronicle ι ε) [HasTerm ε] (p : ι) (V j : Nat) : Chronicle ι ε :=
  { H with
    tip := Function.update H.tip p (posAt (H.ledger V) j)
    hor := Function.update H.hor p (max (H.hor p) V) }

/-- Server `p` hears of term `V`. -/
def learn (H : Chronicle ι ε) (p : ι) (V : Nat) : Chronicle ι ε :=
  { H with hor := Function.update H.hor p (max (H.hor p) V) }

section
variable {H : Chronicle ι ε} {p : ι} {V : Nat}

theorem hor_le_learn (q : ι) : H.hor q ≤ (H.learn p V).hor q := by
  by_cases hq : q = p
  · subst hq
    simp [learn]
  · simp [learn, hq]

/-- Learning of a term continues the history. -/
theorem ext_learn : Ext H (H.learn p V) := { Ext.refl H with hor := hor_le_learn }

/-- Learning of a term changes nothing for the other servers. -/
theorem frame_learn {j : ι} (hj : j ≠ p) : Frame H (H.learn p V) j :=
  { Frame.refl H j with hor := by simp [learn, hj] }

variable [HasTerm ε]

/-- Accepting entries continues the history. -/
theorem ext_accept {j : Nat} : Ext H (H.accept p V j) := { Ext.refl H with hor := hor_le_learn }

/-- Accepting entries changes nothing for the other servers. -/
theorem frame_accept {j : ι} {k : Nat} (hj : j ≠ p) : Frame H (H.accept p V k) j :=
  { Frame.refl H j with
    tip := by simp [accept, hj]
    hor := by simp [accept, hj] }

variable [Fintype ι]

/-- A raised horizon is the term of a leader. -/
theorem OK.hor_learn (h : H.OK) (hV : H.Elected V) (q : ι) :
    (H.learn p V).hor q = 0 ∨ H.Elected ((H.learn p V).hor q) := by
  by_cases hq : q = p
  · subst hq
    simp only [Chronicle.learn, Function.update_self]
    rcases Nat.le_total (H.hor q) V with hle | hle
    · rw [Nat.max_eq_right hle]
      exact .inr hV
    · rw [Nat.max_eq_left hle]
      exact h.tip.hor q
  · simp only [Chronicle.learn, Function.update_of_ne hq]
    exact h.tip.hor q

/-- Hearing of a later term keeps the invariant. -/
theorem OK.learn (h : H.OK) (hV : H.Elected V) : (H.learn p V).OK where
  ledger := h.ledger
  vote := ⟨h.vote.vote_le, h.vote.vote_req, h.vote.req_le, h.vote.quorum, h.vote.req_hor⟩
  tip := ⟨h.tip.tip, fun q => Nat.le_trans (h.tip.tip_hor q) (hor_le_learn q), h.hor_learn hV,
    h.tip.req⟩
  ack := ⟨h.ack.ack_le, h.ack.ack_cur, h.ack.done_range, h.ack.done_quorum⟩
  core := ⟨h.core.complete, h.core.held, h.core.asked⟩

omit [DecidableEq ι] in
/-- The log that `p` takes over is at least as up to date as what `p` acknowledged. -/
theorem OK.held_accept (h : H.OK) {j T i : Nat} (hV : H.Elected V) (hcur : H.cur p ≤ V)
    (hj : j ≤ (H.ledger V).length)
    (hcase : (H.tip p).index ≤ j ∨ H.base V ≤ j ∧ ¬ (H.ledger V).take j <+: H.path (H.tip p))
    (hc : H.Choosable T i) (hb : H.base T < i) (ha : i ≤ H.ack p T) :
    ⟨T, i⟩ ≤ posAt (H.ledger V) j := by
  have hi : i ≤ (H.ledger T).length := Nat.le_trans ha (h.ack.ack_le p T)
  have hTV : T ≤ V := Nat.le_trans (h.ack.ack_cur p T (by omega)) hcur
  have hold := h.core.held p T i hc hb ha
  obtain ⟨hidx, hpath⟩ := h.take_eq_of_le hc hb hi (h.tip.tip p) hold
  have hTel : H.Elected T := by
    intro hn
    rw [h.ledger.nil T hn] at hi
    simp only [List.length_nil] at hi
    omega
  -- the leader's log has `(T, i)` too
  have hVT : (H.ledger V).take i = (H.ledger T).take i ∧ (T < V → i ≤ H.base V) := by
    rcases Nat.lt_or_eq_of_le hTV with hlt | rfl
    · obtain ⟨h1, h2⟩ := h.core.complete T i V hc hb hi hlt hV
      exact ⟨h2, fun _ => h1⟩
    · exact ⟨rfl, fun hlt => absurd hlt (Nat.lt_irrefl _)⟩
  have hij : i ≤ j := by
    rcases hcase with hle | ⟨hbj, hnot⟩
    · omega
    · rcases Nat.lt_or_eq_of_le hTV with hlt | rfl
      · exact Nat.le_trans (hVT.2 hlt) hbj
      · -- a shorter log of the same leader is contained in what `p` holds
        by_contra hlt
        refine hnot ?_
        rw [path, pathTo, take_congr hpath.symm (show j ≤ i by omega)]
        exact (List.take_prefix_take_left (by omega))
  have hown : termAt (H.ledger T) i = T := h.ledger.own T i hTel hb hi
  refine h.ledger.le_of_take_eq (h.ledger.validPos_posAt hj) hown hij ?_
  have := h.ledger.tree V j hj
  rw [show ((posAt (H.ledger V) j).term) = termAt (H.ledger V) j from rfl,
    ← take_congr this hij, hVT.1]

/-- Taking over a leader's log keeps the invariant. -/
theorem OK.accept (h : H.OK) {j : Nat} (hV : H.Elected V) (hcur : H.cur p ≤ V)
    (hj : j ≤ (H.ledger V).length)
    (hcase : (H.tip p).index ≤ j ∨ H.base V ≤ j ∧ ¬ (H.ledger V).take j <+: H.path (H.tip p)) :
    (H.accept p V j).OK where
  ledger := h.ledger
  vote := ⟨h.vote.vote_le, h.vote.vote_req, h.vote.req_le, h.vote.quorum, h.vote.req_hor⟩
  tip := by
    refine ⟨?_, ?_, h.hor_learn hV, h.tip.req⟩
    · intro q
      by_cases hq : q = p
      · subst hq
        simp only [Chronicle.accept, Function.update_self]
        exact h.ledger.validPos_posAt hj
      · simp only [Chronicle.accept, Function.update_of_ne hq]
        exact h.tip.tip q
    · intro q
      by_cases hq : q = p
      · subst hq
        simp only [Chronicle.accept, Function.update_self, posAt]
        exact Nat.le_trans (h.ledger.termAt_le hV hj) (Nat.le_max_right _ _)
      · simp only [Chronicle.accept, Function.update_of_ne hq]
        exact h.tip.tip_hor q
  ack := ⟨h.ack.ack_le, h.ack.ack_cur, h.ack.done_range, h.ack.done_quorum⟩
  core := by
    refine ⟨h.core.complete, ?_, h.core.asked⟩
    intro q T i hc hb ha
    by_cases hq : q = p
    · subst hq
      simp only [Chronicle.accept, Function.update_self]
      exact h.held_accept hV hcur hj hcase hc hb ha
    · simp only [Chronicle.accept, Function.update_of_ne hq]
      exact h.core.held q T i hc hb ha

end

/-! ## Acknowledging and committing -/

/-- Server `p` acknowledges the log of its current term up to `m`. -/
def acknowledge (H : Chronicle ι ε) (p : ι) (m : Nat) : Chronicle ι ε :=
  { H with ack := update₂ H.ack p (H.cur p) (max (H.ack p (H.cur p)) m) }

/-- The leader of term `T` commits the indices `is`. -/
def commit (H : Chronicle ι ε) (T : Nat) (is : List Nat) : Chronicle ι ε :=
  { H with done := fun T' i => H.done T' i ∨ T' = T ∧ i ∈ is }

section
variable {H : Chronicle ι ε} {p : ι} {m T : Nat} {is : List Nat}

theorem ack_le_acknowledge (q : ι) (T : Nat) : H.ack q T ≤ (H.acknowledge p m).ack q T := by
  by_cases heq : q = p ∧ T = H.cur p
  · obtain ⟨rfl, rfl⟩ := heq
    simp [acknowledge]
  · simp [acknowledge, update₂_of_ne heq]

/-- An acknowledgement continues the history. -/
theorem ext_acknowledge : Ext H (H.acknowledge p m) :=
  { Ext.refl H with ack := ack_le_acknowledge }

/-- An acknowledgement changes nothing for the other servers. -/
theorem frame_acknowledge {j : ι} (hj : j ≠ p) : Frame H (H.acknowledge p m) j :=
  { Frame.refl H j with ack := funext fun _ => update₂_of_ne (by simp [hj]) }

omit [DecidableEq ι] in
/-- A commit continues the history. -/
theorem ext_commit : Ext H (H.commit T is) := { Ext.refl H with done := fun _ _ h => .inl h }

omit [DecidableEq ι] in
/-- A commit of a term changes nothing for servers other than its leader. -/
theorem frame_commit (hl : H.leader T = some p) {j : ι} (hj : j ≠ p) :
    Frame H (H.commit T is) j := by
  refine { Frame.refl H j with done := ?_ }
  rintro hlj k (hd | ⟨hT, _⟩)
  · exact hd
  · rw [hT, hl] at hlj
    exact absurd (Option.some.inj hlj).symm hj

variable [Fintype ι] [HasTerm ε]

/-- Acknowledging what is at most as up to date as the server's own log keeps the invariant. -/
theorem OK.acknowledge (h : H.OK) (hm : m ≤ (H.ledger (H.cur p)).length)
    (hle : (⟨H.cur p, m⟩ : Pos) ≤ H.tip p) : (H.acknowledge p m).OK := by
  -- an acknowledgement of `p` is old, or of its current term and at most `m`
  have hack : ∀ {q T i}, i ≤ (H.acknowledge p m).ack q T →
      i ≤ H.ack q T ∨ q = p ∧ T = H.cur p ∧ i ≤ m := by
    intro q T i ha
    by_cases heq : q = p ∧ T = H.cur p
    · obtain ⟨rfl, rfl⟩ := heq
      simp only [Chronicle.acknowledge, update₂_self] at ha
      rcases le_max_iff.1 ha with hi | hi
      · exact .inl hi
      · exact .inr ⟨rfl, rfl, hi⟩
    · simp only [Chronicle.acknowledge, update₂_of_ne heq] at ha
      exact .inl ha
  have hch : ∀ {T i}, (H.acknowledge p m).Choosable T i → H.Choosable T i := by
    refine fun hc => hc.of_cur_le (fun _ => Nat.le_refl _) fun q ha => ?_
    rcases hack ha with ha | ⟨rfl, rfl, _⟩
    · exact .inl ha
    · exact .inr (Nat.le_refl _)
  refine { ledger := h.ledger
           vote := ⟨h.vote.vote_le, h.vote.vote_req, h.vote.req_le, h.vote.quorum, h.vote.req_hor⟩
           tip := ⟨h.tip.tip, h.tip.tip_hor, h.tip.hor, h.tip.req⟩
           ack := ?_, core := ?_ }
  · refine ⟨?_, ?_, h.ack.done_range, ?_⟩
    · intro q T
      rcases hack (Nat.le_refl ((H.acknowledge p m).ack q T)) with ha | ⟨rfl, rfl, ha⟩
      · exact Nat.le_trans ha (h.ack.ack_le q T)
      · exact Nat.le_trans ha hm
    · intro q T hpos
      rcases hack hpos with ha | ⟨rfl, rfl, _⟩
      · exact h.ack.ack_cur q T ha
      · exact Nat.le_refl _
    · intro T i hd
      obtain ⟨Q, hQ, hq⟩ := h.ack.done_quorum T i hd
      exact ⟨Q, hQ, fun q hmem => Nat.le_trans (hq q hmem) (ack_le_acknowledge q T)⟩
  · refine ⟨fun T i W hc => h.core.complete T i W (hch hc), ?_, ?_⟩
    · intro q T i hc hb ha
      rcases hack ha with hold | ⟨rfl, rfl, hnew⟩
      · exact h.core.held q T i (hch hc) hb hold
      · exact Pos.le_trans (y := ⟨H.cur q, m⟩) (.inr ⟨rfl, hnew⟩) hle
    · intro q d U z k T i hv hr hT hc hb ha
      rcases hack ha with ha | ⟨rfl, rfl, _⟩
      · exact h.core.asked q d U z k T i hv hr hT (hch hc) hb ha
      · have := h.vote.vote_le q U d hv
        omega

omit [DecidableEq ι] in
/-- Committing what a majority acknowledged keeps the invariant. -/
theorem OK.commit (h : H.OK) (hT : H.Elected T)
    (his : ∀ i ∈ is, H.base T < i ∧ i ≤ (H.ledger T).length ∧
      ∃ Q : Finset ι, Quorum Q ∧ ∀ p ∈ Q, i ≤ H.ack p T) : (H.commit T is).OK where
  ledger := h.ledger
  vote := ⟨h.vote.vote_le, h.vote.vote_req, h.vote.req_le, h.vote.quorum, h.vote.req_hor⟩
  tip := ⟨h.tip.tip, h.tip.tip_hor, h.tip.hor, h.tip.req⟩
  ack := by
    refine ⟨h.ack.ack_le, h.ack.ack_cur, ?_, ?_⟩
    · rintro T' i (hd | ⟨rfl, hi⟩)
      · exact h.ack.done_range T' i hd
      · exact ⟨hT, (his i hi).1, (his i hi).2.1⟩
    · rintro T' i (hd | ⟨rfl, hi⟩)
      · exact h.ack.done_quorum T' i hd
      · exact (his i hi).2.2
  core := ⟨h.core.complete, h.core.held, h.core.asked⟩

end

end DistLabs.Lib.Chronicle
