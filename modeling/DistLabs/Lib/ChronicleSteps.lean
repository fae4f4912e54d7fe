import DistLabs.Lib.Chronicle

/-!
# The steps of a chronicle: elections

Each abstract step is a function on chronicles with a lemma that it keeps the invariant under its
precondition (`OK.raise`, `OK.stand`, …) and one that its result extends the chronicle
(`ext_raise`, `ext_stand`, …).
-/

namespace DistLabs.Lib.Chronicle

variable {ι ε : Type}

section Servers
variable [DecidableEq ι]

/-- `f` with the value at `(p, U)` replaced. -/
def update₂ {β : Type} (f : ι → Nat → β) (p : ι) (U : Nat) (b : β) : ι → Nat → β :=
  fun q V => if q = p ∧ V = U then b else f q V

@[simp] theorem update₂_self {β : Type} (f : ι → Nat → β) (p : ι) (U : Nat) (b : β) :
    update₂ f p U b p U = b := by simp [update₂]

theorem update₂_of_ne {β : Type} {f : ι → Nat → β} {p q : ι} {U V : Nat} {b : β}
    (h : ¬ (q = p ∧ V = U)) : update₂ f p U b q V = f q V := by simp [update₂, h]

/-! ## Terms -/

/-- Server `p` moves on to term `t`. -/
def raise (H : Chronicle ι ε) (p : ι) (t : Nat) : Chronicle ι ε :=
  { H with cur := Function.update H.cur p t }

section
variable {H : Chronicle ι ε} {p : ι} {t : Nat}

theorem cur_le_raise (ht : H.cur p ≤ t) (q : ι) : H.cur q ≤ (H.raise p t).cur q := by
  by_cases hq : q = p
  · subst hq; simpa [raise] using ht
  · simp [raise, hq]

/-- Entering a term continues the history. -/
theorem ext_raise (ht : H.cur p ≤ t) : Ext H (H.raise p t) :=
  { Ext.refl H with cur := cur_le_raise ht }

/-- Entering a term changes nothing for the other servers. -/
theorem frame_raise {j : ι} (hj : j ≠ p) : Frame H (H.raise p t) j :=
  { Frame.refl H j with cur := by simp [raise, hj] }

variable [Fintype ι] [HasTerm ε]

/-- Moving on to a later term keeps the invariant. -/
theorem OK.raise (h : H.OK) (ht : H.cur p ≤ t) : (H.raise p t).OK := by
  have hcur := cur_le_raise ht
  have hch : ∀ {T i}, (H.raise p t).Choosable T i → H.Choosable T i :=
    fun hc => hc.of_cur_le hcur fun _ ha => .inl ha
  exact
    { ledger := h.ledger
      vote :=
        { vote_le := fun q U c hv => Nat.le_trans (h.vote.vote_le q U c hv) (hcur q)
          vote_req := h.vote.vote_req
          req_le := fun c U hr => Nat.le_trans (h.vote.req_le c U hr) (hcur c)
          quorum := h.vote.quorum
          req_hor := fun c U z k hr =>
            (h.vote.req_hor c U z k hr).imp id fun hb => hb.mono hcur fun _ _ => rfl }
      tip := ⟨h.tip.tip, h.tip.tip_hor, h.tip.hor, h.tip.req⟩
      ack :=
        { ack_le := h.ack.ack_le
          ack_cur := fun q T ha => Nat.le_trans (h.ack.ack_cur q T ha) (hcur q)
          done_range := h.ack.done_range
          done_quorum := h.ack.done_quorum }
      core :=
        { complete := fun T i W hc => h.core.complete T i W (hch hc)
          held := fun q T i hc => h.core.held q T i (hch hc)
          asked := fun q c U z k T i hv hr hT hc =>
            h.core.asked q c U z k T i hv hr hT (hch hc) } }

end

/-! ## Elections -/

/-- Server `c` becomes a candidate in the next term and votes for itself. -/
def stand (H : Chronicle ι ε) (c : ι) : Chronicle ι ε :=
  { H with
    cur := Function.update H.cur c (H.cur c + 1)
    vote := update₂ H.vote c (H.cur c + 1) (some c)
    req := update₂ H.req c (H.cur c + 1) (some (H.tip c, H.hor c)) }

section
variable [Fintype ι] {H : Chronicle ι ε} {c : ι}

/-- Standing for election continues the history. -/
theorem ext_stand (h : H.VoteOK) : Ext H (H.stand c) := by
  refine { Ext.refl H with cur := cur_le_raise (Nat.le_succ _), vote := ?_, req := ?_ }
  · intro p U d hv
    have : ¬ (p = c ∧ U = H.cur c + 1) := by
      rintro ⟨rfl, rfl⟩
      rw [h.vote_next] at hv
      cases hv
    simpa [stand, update₂_of_ne this] using hv
  · intro d U r hr
    have : ¬ (d = c ∧ U = H.cur c + 1) := by
      rintro ⟨rfl, rfl⟩
      rw [h.req_next] at hr
      cases hr
    simpa [stand, update₂_of_ne this] using hr

variable [HasTerm ε]

omit [Fintype ι] [HasTerm ε] in
/-- Standing for election changes nothing for the other servers. -/
theorem frame_stand {j : ι} (hj : j ≠ c) : Frame H (H.stand c) j :=
  { Frame.refl H j with
    cur := by simp [stand, hj]
    vote := update₂_of_ne (by simp [hj]) }

/-- A candidate whose horizon is not before its term is blocked: that term's voters have passed. -/
theorem OK.stand_blocked (h : H.OK) (hle : H.cur c + 1 ≤ H.hor c) :
    (H.stand c).Blocked c (H.cur c + 1) := by
  have hel : H.Elected (H.hor c) := (h.tip.hor c).resolve_left (by omega)
  obtain ⟨l, hl⟩ := Option.ne_none_iff_exists'.1 hel
  obtain ⟨Q, hQ, hv⟩ := h.vote.quorum _ l hl
  refine ⟨Q, hQ, fun p hp => ?_⟩
  have hcurp := h.vote.vote_le p _ l (hv p hp)
  have hpc : p ≠ c := by
    rintro rfl
    omega
  have hcur : (H.stand c).cur p = H.cur p := by simp [stand, hpc]
  have hvote : (H.stand c).vote p (H.cur c + 1) = H.vote p (H.cur c + 1) :=
    update₂_of_ne (by simp [hpc])
  rw [hcur, hvote]
  constructor
  · intro hvc
    exact h.vote.vote_req p _ c hvc h.vote.req_next
  · rcases Nat.lt_or_ge (H.cur c + 1) (H.cur p) with hlt | hge
    · exact .inl hlt
    · have heq : H.hor c = H.cur c + 1 := by omega
      refine .inr ⟨by omega, ?_⟩
      rw [← heq, hv p hp]
      simp

/-- Becoming a candidate keeps the invariant. -/
theorem OK.stand (h : H.OK) : (H.stand c).OK := by
  have hcur : ∀ q, H.cur q ≤ (H.stand c).cur q := (ext_stand h.vote).cur
  have hch : ∀ {T i}, (H.stand c).Choosable T i → H.Choosable T i :=
    fun hc => hc.of_cur_le hcur fun _ ha => .inl ha
  refine { ledger := h.ledger, vote := ?_, tip := ?_, ack := ?_, core := ?_ }
  · constructor
    · intro p U d hv
      by_cases heq : p = c ∧ U = H.cur c + 1
      · obtain ⟨rfl, rfl⟩ := heq
        simp [Chronicle.stand]
      · rw [show (H.stand c).vote p U = H.vote p U from update₂_of_ne heq] at hv
        exact Nat.le_trans (h.vote.vote_le p U d hv) (hcur p)
    · intro p U d hv
      by_cases heq : p = c ∧ U = H.cur c + 1
      · obtain ⟨rfl, rfl⟩ := heq
        rw [show (H.stand p).vote p (H.cur p + 1) = some p from update₂_self ..] at hv
        cases hv
        simp [Chronicle.stand]
      · rw [show (H.stand c).vote p U = H.vote p U from update₂_of_ne heq] at hv
        obtain ⟨r, hr⟩ := Option.ne_none_iff_exists'.1 (h.vote.vote_req p U d hv)
        rw [(ext_stand h.vote).req d U r hr]
        simp
    · intro d U hr
      by_cases heq : d = c ∧ U = H.cur c + 1
      · obtain ⟨rfl, rfl⟩ := heq
        simp [Chronicle.stand]
      · rw [show (H.stand c).req d U = H.req d U from update₂_of_ne heq] at hr
        exact Nat.le_trans (h.vote.req_le d U hr) (hcur d)
    · intro U d hl
      obtain ⟨Q, hQ, hv⟩ := h.vote.quorum U d hl
      exact ⟨Q, hQ, fun p hp => (ext_stand h.vote).vote p U d (hv p hp)⟩
    · intro d U z k hr
      by_cases heq : d = c ∧ U = H.cur c + 1
      · obtain ⟨rfl, rfl⟩ := heq
        rw [show (H.stand d).req d (H.cur d + 1) = some (H.tip d, H.hor d) from
          update₂_self ..] at hr
        cases hr
        rcases Nat.lt_or_ge (H.hor d) (H.cur d + 1) with hlt | hge
        · exact .inl hlt
        · exact .inr (h.stand_blocked hge)
      · rw [show (H.stand c).req d U = H.req d U from update₂_of_ne heq] at hr
        refine (h.vote.req_hor d U z k hr).imp id fun hb => hb.mono hcur fun q hq => ?_
        refine update₂_of_ne ?_
        rintro ⟨rfl, rfl⟩
        omega
  · refine ⟨h.tip.tip, h.tip.tip_hor, h.tip.hor, fun d U z k hr => ?_⟩
    by_cases heq : d = c ∧ U = H.cur c + 1
    · obtain ⟨rfl, rfl⟩ := heq
      rw [show (H.stand d).req d (H.cur d + 1) = some (H.tip d, H.hor d) from
        update₂_self ..] at hr
      cases hr
      exact ⟨h.tip.tip d, h.tip.tip_hor d⟩
    · rw [show (H.stand c).req d U = H.req d U from update₂_of_ne heq] at hr
      exact h.tip.req d U z k hr
  · exact ⟨h.ack.ack_le, fun q T ha => Nat.le_trans (h.ack.ack_cur q T ha) (hcur q),
      h.ack.done_range, h.ack.done_quorum⟩
  · refine ⟨fun T i W hc => h.core.complete T i W (hch hc),
      fun q T i hc => h.core.held q T i (hch hc), ?_⟩
    intro p d U z k T i hv hr hT hc hb ha
    by_cases heq : p = c ∧ U = H.cur c + 1
    · -- the candidate's own vote: it holds what it acknowledged
      obtain ⟨rfl, rfl⟩ := heq
      rw [show (H.stand p).vote p (H.cur p + 1) = some p from update₂_self ..] at hv
      cases hv
      rw [show (H.stand p).req p (H.cur p + 1) = some (H.tip p, H.hor p) from
        update₂_self ..] at hr
      cases hr
      exact h.core.held p T i (hch hc) hb ha
    · rw [show (H.stand c).vote p U = H.vote p U from update₂_of_ne heq] at hv
      obtain ⟨r, hr'⟩ := Option.ne_none_iff_exists'.1 (h.vote.vote_req p U d hv)
      have := (ext_stand (c := c) h.vote).req d U r hr'
      rw [hr] at this
      cases this
      exact h.core.asked p d U z k T i hv hr' hT (hch hc) hb ha

end

/-- Server `p` votes for `c` in its current term. -/
def grant (H : Chronicle ι ε) (p c : ι) : Chronicle ι ε :=
  { H with vote := update₂ H.vote p (H.cur p) (some c) }

section
variable {H : Chronicle ι ε} {p c : ι}

/-- A vote continues the history, if it is the first one of its term or the same again. -/
theorem ext_grant (hv : H.vote p (H.cur p) = none ∨ H.vote p (H.cur p) = some c) :
    Ext H (H.grant p c) := by
  refine { Ext.refl H with vote := ?_ }
  intro q U d hq
  by_cases heq : q = p ∧ U = H.cur p
  · obtain ⟨rfl, rfl⟩ := heq
    rw [hq] at hv
    rw [hv.resolve_left (by simp)]
    exact update₂_self ..
  · rw [← hq]
    exact update₂_of_ne heq

/-- A vote changes nothing for the other servers. -/
theorem frame_grant {j : ι} (hj : j ≠ p) : Frame H (H.grant p c) j :=
  { Frame.refl H j with vote := update₂_of_ne (by simp [hj]) }

variable [Fintype ι] [HasTerm ε]

/-- A vote for a candidate that is at least as up to date keeps the invariant. -/
theorem OK.grant (h : H.OK) {z : Pos} {k : Nat}
    (hv : H.vote p (H.cur p) = none ∨ H.vote p (H.cur p) = some c)
    (hr : H.req c (H.cur p) = some (z, k)) (hle : H.tip p ≤ z) : (H.grant p c).OK := by
  have hnew : (H.grant p c).vote p (H.cur p) = some c := update₂_self ..
  have hch : ∀ {T i}, (H.grant p c).Choosable T i → H.Choosable T i := id
  refine { ledger := h.ledger, vote := ?_, tip := ⟨h.tip.tip, h.tip.tip_hor, h.tip.hor, h.tip.req⟩,
           ack := ⟨h.ack.ack_le, h.ack.ack_cur, h.ack.done_range, h.ack.done_quorum⟩, core := ?_ }
  · refine ⟨?_, ?_, h.vote.req_le, ?_, ?_⟩
    · intro q U d hq
      by_cases heq : q = p ∧ U = H.cur p
      · obtain ⟨rfl, rfl⟩ := heq
        exact Nat.le_refl _
      · rw [show (H.grant p c).vote q U = H.vote q U from update₂_of_ne heq] at hq
        exact h.vote.vote_le q U d hq
    · intro q U d hq
      by_cases heq : q = p ∧ U = H.cur p
      · obtain ⟨rfl, rfl⟩ := heq
        rw [hnew] at hq
        cases hq
        show H.req c (H.cur q) ≠ none
        rw [hr]
        simp
      · rw [show (H.grant p c).vote q U = H.vote q U from update₂_of_ne heq] at hq
        exact h.vote.vote_req q U d hq
    · intro U d hl
      obtain ⟨Q, hQ, hq⟩ := h.vote.quorum U d hl
      exact ⟨Q, hQ, fun q hmem => (ext_grant hv).vote q U d (hq q hmem)⟩
    · intro d U y k hd
      refine (h.vote.req_hor d U y k hd).imp id fun hb => hb.mono (fun _ => Nat.le_refl _) ?_
      intro q hq
      by_cases heq : q = p ∧ U = H.cur p
      · obtain ⟨rfl, rfl⟩ := heq
        have hne := (hq.resolve_left (Nat.lt_irrefl _)).2
        rw [hnew, hv.resolve_left hne]
      · exact update₂_of_ne heq
  · refine ⟨fun T i W hc => h.core.complete T i W (hch hc),
      fun q T i hc => h.core.held q T i (hch hc), ?_⟩
    intro q d U y k' T i hq hd hT hc hb ha
    by_cases heq : q = p ∧ U = H.cur p
    · obtain ⟨rfl, rfl⟩ := heq
      rw [hnew] at hq
      cases hq
      have hd' : H.req c (H.cur q) = some (y, k') := hd
      rw [hr] at hd'
      cases hd'
      exact Pos.le_trans (h.core.held q T i (hch hc) hb ha) hle
    · rw [show (H.grant p c).vote q U = H.vote q U from update₂_of_ne heq] at hq
      exact h.core.asked q d U y k' T i hq hd hT (hch hc) hb ha

end

end Servers

/-- Candidate `c` becomes leader of its term, with the log that ends at its last position. -/
def elect (H : Chronicle ι ε) (c : ι) : Chronicle ι ε :=
  { H with
    leader := Function.update H.leader (H.cur c) (some c)
    ledger := Function.update H.ledger (H.cur c) (H.path (H.tip c))
    base := Function.update H.base (H.cur c) (H.tip c).index }

section
variable [Fintype ι] [HasTerm ε] {H : Chronicle ι ε} {c : ι}

/-- An election continues the history, if the term has no leader yet. -/
theorem ext_elect (h : H.OK) (hl : H.leader (H.cur c) = none) : Ext H (H.elect c) := by
  refine { Ext.refl H with leader := ?_, ledger := ?_, base := ?_ }
  · intro U d hd
    have : U ≠ H.cur c := by
      rintro rfl
      rw [hl] at hd
      cases hd
    simpa [elect, this] using hd
  · intro U
    by_cases hU : U = H.cur c
    · subst hU
      rw [h.ledger.nil _ hl]
      exact List.nil_prefix
    · simp [elect, hU]
  · intro U hU
    have : U ≠ H.cur c := by
      rintro rfl
      exact hU hl
    simp [elect, this]

omit [Fintype ι] [HasTerm ε] in
/-- An election changes nothing for the other servers. -/
theorem frame_elect (hl : H.leader (H.cur c) = none) {j : ι} (hj : j ≠ c) :
    Frame H (H.elect c) j := by
  refine { Frame.refl H j with ledger := ?_, leader := ?_ }
  · intro hlj
    have : H.cur j ≠ H.cur c := by
      intro heq
      rw [heq, hl] at hlj
      cases hlj
    simp [elect, this]
  · intro hlj
    by_cases heq : H.cur j = H.cur c
    · simp only [elect, heq, Function.update_self, Option.some.injEq] at hlj
      exact absurd hlj.symm hj
    · simpa [elect, heq] using hlj

/-- A candidate with a majority of votes had a horizon before its term. -/
theorem OK.hor_lt (h : H.OK) {Q : Finset ι} (hQ : Quorum Q)
    (hv : ∀ p ∈ Q, H.vote p (H.cur c) = some c)
    (hr : H.req c (H.cur c) = some (H.tip c, H.hor c)) : H.hor c < H.cur c :=
  (h.vote.req_hor c _ _ _ hr).resolve_right (not_blocked hQ hv)

/-- The log of a newly elected leader extends the tree. -/
theorem OK.elect_ledger (h : H.OK) (hl : H.leader (H.cur c) = none)
    (hlt : (H.tip c).term < H.cur c) :
    LedgerOK (H.elect c).leader (H.elect c).ledger (H.elect c).base := by
  have hvalid := h.tip.tip c
  have hnil : H.ledger (H.cur c) = [] := h.ledger.nil _ hl
  have hlen : (H.path (H.tip c)).length = (H.tip c).index := hvalid.length_pathTo
  -- the new log's terms are those of an older leader's log, and below the new term
  have hterm : ∀ {i}, i ≤ (H.tip c).index →
      termAt (H.path (H.tip c)) i = termAt (H.ledger (H.tip c).term) i ∧
        termAt (H.ledger (H.tip c).term) i < H.cur c := by
    intro i hi
    refine ⟨termAt_pathTo hi, ?_⟩
    calc termAt (H.ledger (H.tip c).term) i
        ≤ termAt (H.ledger (H.tip c).term) (H.tip c).index := h.ledger.mono _ _ _ hi hvalid.1
      _ = (H.tip c).term := hvalid.2
      _ < H.cur c := hlt
  constructor
  · have : (0 : Nat) ≠ H.cur c := by omega
    simpa [elect, this] using h.ledger.zero
  · intro V hV
    by_cases hVc : V = H.cur c
    · subst hVc
      simp [elect] at hV
    · simp only [elect, Function.update_of_ne hVc] at hV ⊢
      exact h.ledger.nil V hV
  · intro V hV
    by_cases hVc : V = H.cur c
    · subst hVc
      simp [elect, hlen]
    · simp only [elect, Function.update_of_ne hVc] at hV ⊢
      exact h.ledger.base_le V hV
  · intro V i hV hb hi
    by_cases hVc : V = H.cur c
    · subst hVc
      simp only [elect, Function.update_self, hlen] at hb hi
      omega
    · simp only [elect, Function.update_of_ne hVc] at hV hb hi ⊢
      exact h.ledger.own V i hV hb hi
  · intro V i hV hb
    by_cases hVc : V = H.cur c
    · subst hVc
      simp only [elect, Function.update_self] at hb ⊢
      obtain ⟨h1, h2⟩ := hterm hb
      omega
    · simp only [elect, Function.update_of_ne hVc] at hV hb ⊢
      exact h.ledger.low V i hV hb
  · intro V i hi
    by_cases hVc : V = H.cur c
    · subst hVc
      simp only [elect, Function.update_self, hlen] at hi ⊢
      obtain ⟨h1, h2⟩ := hterm hi
      rw [h1, Function.update_of_ne (by omega), ← h.ledger.tree _ i (by have := hvalid.1; omega),
        path, pathTo, List.take_take, Nat.min_eq_left hi]
    · simp only [elect, Function.update_of_ne hVc] at hi ⊢
      have ht := h.ledger.tree V i hi
      by_cases hs : termAt (H.ledger V) i = H.cur c
      · -- an entry of the new term cannot exist yet
        rw [hs, hnil, List.take_nil] at ht
        have : i = 0 := by
          have := congrArg List.length ht
          simp only [List.length_take, List.length_nil] at this
          omega
        subst this
        simp
      · rw [Function.update_of_ne hs]
        exact ht
  · intro V i j hij hj
    by_cases hVc : V = H.cur c
    · subst hVc
      simp only [elect, Function.update_self, hlen] at hj ⊢
      rw [(hterm (Nat.le_trans hij hj)).1, (hterm hj).1]
      exact h.ledger.mono _ _ _ hij (by have := hvalid.1; omega)
    · simp only [elect, Function.update_of_ne hVc] at hj ⊢
      exact h.ledger.mono V i j hij hj

/-- Winning an election keeps the invariant. -/
theorem OK.elect (h : H.OK) {Q : Finset ι} (hQ : Quorum Q)
    (hv : ∀ p ∈ Q, H.vote p (H.cur c) = some c)
    (hr : H.req c (H.cur c) = some (H.tip c, H.hor c)) (hl : H.leader (H.cur c) = none) :
    (H.elect c).OK := by
  have hhor := h.hor_lt hQ hv hr
  have hvalid := h.tip.tip c
  have hlt : (H.tip c).term < H.cur c := Nat.lt_of_le_of_lt (h.tip.tip_hor c) hhor
  have hnil : H.ledger (H.cur c) = [] := h.ledger.nil _ hl
  have hext := ext_elect h hl
  have hlen : (H.path (H.tip c)).length = (H.tip c).index := hvalid.length_pathTo
  have hch : ∀ {T i}, (H.elect c).Choosable T i → H.Choosable T i := id
  refine { ledger := h.elect_ledger hl hlt, vote := ?_, tip := ?_, ack := ?_, core := ?_ }
  · refine ⟨h.vote.vote_le, h.vote.vote_req, h.vote.req_le, ?_, h.vote.req_hor⟩
    intro U d hd
    by_cases hU : U = H.cur c
    · subst hU
      simp only [Chronicle.elect, Function.update_self, Option.some.injEq] at hd
      subst hd
      exact ⟨Q, hQ, hv⟩
    · simp only [Chronicle.elect, Function.update_of_ne hU] at hd
      exact h.vote.quorum U d hd
  · refine ⟨fun p => hext.validPos (h.tip.tip p), h.tip.tip_hor, ?_, ?_⟩
    · intro p
      exact (h.tip.hor p).imp id fun he => hext.elected he
    · intro d U z k hd
      obtain ⟨h1, h2⟩ := h.tip.req d U z k hd
      exact ⟨hext.validPos h1, h2⟩
  · refine ⟨fun p T => Nat.le_trans (h.ack.ack_le p T) (hext.length T), h.ack.ack_cur, ?_,
      h.ack.done_quorum⟩
    intro T i hd
    obtain ⟨h1, h2, h3⟩ := h.ack.done_range T i hd
    exact ⟨hext.elected h1, by rw [hext.base T h1]; exact h2,
      Nat.le_trans h3 (hext.length T)⟩
  · -- nothing was appended to the new log yet
    have hfresh : ∀ {T i}, (H.elect c).base T < i → i ≤ ((H.elect c).ledger T).length →
        T ≠ H.cur c := by
      rintro T i hb hi rfl
      simp only [Chronicle.elect, Function.update_self, hlen] at hb hi
      omega
    refine ⟨?_, ?_, ?_⟩
    · intro T i W hc hb hi hT hW
      have hTc := hfresh hb hi
      simp only [Chronicle.elect, Function.update_of_ne hTc] at hb hi
      by_cases hWc : W = H.cur c
      · subst hWc
        -- a voter acknowledged `(T, i)`, so the candidate was at least as up to date
        obtain ⟨R, hR, hq⟩ := hch hc
        obtain ⟨p, hp, hp'⟩ := hR.inter hQ
        have hcurp := h.vote.vote_le p _ c (hv p hp')
        have hack : i ≤ H.ack p T := (hq p hp).resolve_right (by omega)
        have hle := h.core.asked p c _ _ _ T i (hv p hp') hr hT (hch hc) hb hack
        obtain ⟨h1, h2⟩ := h.take_eq_of_le (hch hc) hb hi hvalid hle
        simp only [Chronicle.elect, Function.update_self, Function.update_of_ne hTc]
        refine ⟨h1, ?_⟩
        rw [path, pathTo, List.take_take, Nat.min_eq_left h1, h2]
      · simp only [Chronicle.elect, Function.update_of_ne hTc, Function.update_of_ne hWc]
        refine h.core.complete T i W (hch hc) hb hi hT ?_
        simpa [Chronicle.elect, hWc] using hW
    · intro p T i hc hb ha
      have hi : i ≤ (H.ledger T).length := Nat.le_trans ha (h.ack.ack_le p T)
      have hTc := hfresh hb (Nat.le_trans hi (hext.length T))
      simp only [Chronicle.elect, Function.update_of_ne hTc] at hb
      exact h.core.held p T i (hch hc) hb ha
    · intro p d U z k T i hp hd hT hc hb ha
      have hi : i ≤ (H.ledger T).length := Nat.le_trans ha (h.ack.ack_le p T)
      have hTc := hfresh hb (Nat.le_trans hi (hext.length T))
      simp only [Chronicle.elect, Function.update_of_ne hTc] at hb
      exact h.core.asked p d U z k T i hp hd hT (hch hc) hb ha

end

end DistLabs.Lib.Chronicle
