import DistLabs.Lib.Quorum
import DistLabs.Lib.Ledger
import Mathlib.Logic.Function.Basic

/-!
# Chronicles: what a leader-based replication protocol has done so far

A `Chronicle` records, for a finite set `ι` of servers, the votes cast, the leaders elected with
their logs, how far each server's own log reaches, what each server acknowledged in which term, and
what was committed. It is the abstract protocol that elects at most one leader a term, replicates
the leader's log and commits by majority. The operations (`raise`, `stand`, `grant`, `elect`,
`append`, `accept`, `learn`, `acknowledge`, `commit`) are the abstract steps, each with the
precondition of its preservation lemma; `Chronicle.OK` is the invariant.

Two points differ from the textbook protocol. A server may accept a log from a leader of a term
`V` larger than its own (`cur p ≤ V` in `accept`): its *horizon* `hor p` is the largest term it
learned anything of. And a position is only known to lie at or below a server's last one (`tip`) in
the up-to-dateness order, not to be held: a server may have dropped the entries below a snapshot.

The central notion is `Choosable T i`: index `i` of the log of term `T` may still get a majority of
acknowledgements. Whatever is choosable is in the log of every later leader (`OK.complete`).
-/

namespace DistLabs.Lib

/-- The history of a leader-based replication protocol. -/
structure Chronicle (ι ε : Type) where
  /-- The current term of a server. -/
  cur : ι → Nat
  /-- The vote of a server in a term. -/
  vote : ι → Nat → Option ι
  /-- The last position and the horizon with which a candidate asked for votes in a term. -/
  req : ι → Nat → Option (Pos × Nat)
  leader : Nat → Option ι
  /-- The full log of the leader of a term, compacted entries included. -/
  ledger : Nat → List ε
  /-- How many entries the leader of a term started from. -/
  base : Nat → Nat
  /-- The last position of a server's log. -/
  tip : ι → Pos
  hor : ι → Nat
  /-- How far a server has acknowledged the log of a term. -/
  ack : ι → Nat → Nat
  /-- Index `i` was committed by the leader of term `T`. -/
  done : Nat → Nat → Prop

namespace Chronicle

variable {ι ε : Type}

/-- Before the first step. -/
def init : Chronicle ι ε where
  cur := fun _ => 0
  vote := fun _ _ => none
  req := fun _ _ => none
  leader := fun _ => none
  ledger := fun _ => []
  base := fun _ => 0
  tip := fun _ => ⟨0, 0⟩
  hor := fun _ => 0
  ack := fun _ _ => 0
  done := fun _ _ => False

/-- The log that ends at a position. -/
abbrev path (H : Chronicle ι ε) (x : Pos) : List ε := pathTo H.ledger x

/-- A term has had a leader. -/
abbrev Elected (H : Chronicle ι ε) (V : Nat) : Prop := H.leader V ≠ none

/-- A term that has a leader had an election. -/
theorem elected_of_leader {H : Chronicle ι ε} {V : Nat} {c : ι} (h : H.leader V = some c) :
    H.Elected V := by
  rw [Elected, h]
  simp

/-- Enough servers acknowledged `(T, i)` or may still do so. -/
def Choosable [Fintype ι] (H : Chronicle ι ε) (T i : Nat) : Prop :=
  ∃ Q : Finset ι, Quorum Q ∧ ∀ p ∈ Q, i ≤ H.ack p T ∨ H.cur p ≤ T

/-- Candidate `c` can no longer win term `U`. -/
def Blocked [Fintype ι] (H : Chronicle ι ε) (c : ι) (U : Nat) : Prop :=
  ∃ Q : Finset ι, Quorum Q ∧ ∀ p ∈ Q,
    H.vote p U ≠ some c ∧ (U < H.cur p ∨ H.cur p = U ∧ H.vote p U ≠ none)

/-! ## The invariant -/

/-- Votes and elections. -/
structure VoteOK [Fintype ι] (H : Chronicle ι ε) : Prop where
  vote_le : ∀ p U c, H.vote p U = some c → U ≤ H.cur p
  vote_req : ∀ p U c, H.vote p U = some c → H.req c U ≠ none
  req_le : ∀ c U, H.req c U ≠ none → U ≤ H.cur c
  /-- A leader was elected by a majority. -/
  quorum : ∀ U c, H.leader U = some c →
    ∃ Q : Finset ι, Quorum Q ∧ ∀ p ∈ Q, H.vote p U = some c
  /-- A candidate that knew of a term not before its own cannot win. -/
  req_hor : ∀ c U z h, H.req c U = some (z, h) → h < U ∨ H.Blocked c U

/-- Positions occur in the ledgers, and horizons are terms of leaders. -/
structure TipOK [HasTerm ε] (H : Chronicle ι ε) : Prop where
  tip : ∀ p, ValidPos H.ledger (H.tip p)
  tip_hor : ∀ p, (H.tip p).term ≤ H.hor p
  hor : ∀ p, H.hor p = 0 ∨ H.Elected (H.hor p)
  req : ∀ c U z h, H.req c U = some (z, h) → ValidPos H.ledger z ∧ z.term ≤ h

/-- Acknowledgements and commits. -/
structure AckOK [Fintype ι] (H : Chronicle ι ε) : Prop where
  ack_le : ∀ p T, H.ack p T ≤ (H.ledger T).length
  ack_cur : ∀ p T, 0 < H.ack p T → T ≤ H.cur p
  done_range : ∀ T i, H.done T i → H.Elected T ∧ H.base T < i ∧ i ≤ (H.ledger T).length
  done_quorum : ∀ T i, H.done T i → ∃ Q : Finset ι, Quorum Q ∧ ∀ p ∈ Q, i ≤ H.ack p T

/-- What is choosable reaches later leaders, voters and candidates. -/
structure CoreOK [Fintype ι] (H : Chronicle ι ε) : Prop where
  /-- Every later leader starts from a log that has it. -/
  complete : ∀ T i W, H.Choosable T i → H.base T < i → i ≤ (H.ledger T).length → T < W →
    H.Elected W → i ≤ H.base W ∧ (H.ledger W).take i = (H.ledger T).take i
  /-- Whoever acknowledged it stays at least as up to date. -/
  held : ∀ p T i, H.Choosable T i → H.base T < i → i ≤ H.ack p T → ⟨T, i⟩ ≤ H.tip p
  /-- Whoever acknowledged it voted only for candidates at least as up to date. -/
  asked : ∀ p c U z h T i, H.vote p U = some c → H.req c U = some (z, h) → T < U →
    H.Choosable T i → H.base T < i → i ≤ H.ack p T → ⟨T, i⟩ ≤ z

/-- The invariant of chronicles. -/
structure OK [Fintype ι] [HasTerm ε] (H : Chronicle ι ε) : Prop where
  ledger : LedgerOK H.leader H.ledger H.base
  vote : H.VoteOK
  tip : H.TipOK
  ack : H.AckOK
  core : H.CoreOK

section
variable [Fintype ι] [HasTerm ε] {H : Chronicle ι ε}

/-- The invariant holds initially. -/
theorem OK.init : (Chronicle.init : Chronicle ι ε).OK where
  ledger :=
    { zero := rfl
      nil := fun _ _ => rfl
      base_le := fun _ h => absurd rfl h
      own := fun _ _ h => absurd rfl h
      low := fun _ _ h => absurd rfl h
      tree := fun _ _ _ => rfl
      mono := fun V i j hij hj => by
        have : i = j := by simp only [Chronicle.init, List.length_nil] at hj; omega
        rw [this] }
  vote :=
    { vote_le := nofun
      vote_req := nofun
      req_le := fun _ _ h => absurd rfl h
      quorum := nofun
      req_hor := nofun }
  tip :=
    { tip := fun _ => ⟨Nat.le_refl 0, rfl⟩
      tip_hor := fun _ => Nat.le_refl 0
      hor := fun _ => .inl rfl
      req := nofun }
  ack :=
    { ack_le := fun _ _ => Nat.le_refl 0
      ack_cur := nofun
      done_range := nofun
      done_quorum := nofun }
  core :=
    { complete := fun _ _ _ _ _ _ _ h => absurd rfl h
      held := fun _ _ _ _ h1 h2 => by
        simp only [Chronicle.init] at h1 h2
        omega
      asked := nofun }

/-! ## Consequences -/

omit [HasTerm ε] in
/-- What was committed is choosable. -/
theorem AckOK.choosable (h : H.AckOK) {T i : Nat} (hd : H.done T i) : H.Choosable T i := by
  obtain ⟨Q, hQ, hack⟩ := h.done_quorum T i hd
  exact ⟨Q, hQ, fun p hp => .inl (hack p hp)⟩

omit [HasTerm ε] in
/-- A majority that voted for a candidate refutes `Blocked`. -/
theorem not_blocked {c : ι} {U : Nat} {Q : Finset ι} (hQ : Quorum Q)
    (hv : ∀ p ∈ Q, H.vote p U = some c) : ¬ H.Blocked c U := by
  rintro ⟨R, hR, hb⟩
  obtain ⟨p, hp, hp'⟩ := hQ.inter hR
  exact (hb p hp').1 (hv p hp)

namespace OK

variable (h : H.OK)
include h

/-- Whatever occurs and is at least as up to date as a choosable position has it on its log. -/
theorem take_eq_of_le {T i : Nat} {y : Pos} (hc : H.Choosable T i) (hb : H.base T < i)
    (hi : i ≤ (H.ledger T).length) (hy : ValidPos H.ledger y) (hle : (⟨T, i⟩ : Pos) ≤ y) :
    i ≤ y.index ∧ (H.ledger y.term).take i = (H.ledger T).take i := by
  rcases hle with hlt | ⟨heq, hidx⟩
  · -- a later leader's entry: that leader started from a log with `(T, i)` on it
    have h0 : y.term ≠ 0 := by simp only at hlt; omega
    obtain ⟨h1, h2⟩ := h.core.complete T i y.term hc hb hi hlt (h.ledger.leader_of_valid hy h0)
    have := h.ledger.base_lt_of_valid hy h0
    exact ⟨by omega, h2⟩
  · simp only at heq hidx
    subst heq
    exact ⟨hidx, rfl⟩

/-- A committed prefix is in the log of every later leader. -/
theorem done_complete {T i W : Nat} (hd : H.done T i) (hT : T < W) (hW : H.Elected W) :
    i ≤ H.base W ∧ (H.ledger W).take i = (H.ledger T).take i := by
  obtain ⟨_, h1, h2⟩ := h.ack.done_range T i hd
  exact h.core.complete T i W (h.ack.choosable hd) h1 h2 hT hW

/-- A committed prefix is in the log of every leader from its own on. -/
theorem done_le {T i W : Nat} (hd : H.done T i) (hT : T ≤ W) (hW : H.Elected W) :
    i ≤ (H.ledger W).length ∧ (H.ledger W).take i = (H.ledger T).take i := by
  rcases Nat.lt_or_eq_of_le hT with hlt | rfl
  · obtain ⟨h1, h2⟩ := h.done_complete hd hlt hW
    exact ⟨Nat.le_trans h1 (h.ledger.base_le W hW), h2⟩
  · exact ⟨(h.ack.done_range T i hd).2.2, rfl⟩

/-- **Agreement.** Two committed prefixes agree as far as both reach. -/
theorem done_agree {T i T' i' k : Nat} (hd : H.done T i) (hd' : H.done T' i') (hk : k ≤ i)
    (hk' : k ≤ i') : (H.ledger T).take k = (H.ledger T').take k := by
  rcases Nat.le_total T T' with hle | hle
  · obtain ⟨_, h2⟩ := h.done_le hd hle (h.ack.done_range T' i' hd').1
    exact (take_congr h2 hk).symm
  · obtain ⟨_, h2⟩ := h.done_le hd' hle (h.ack.done_range T i hd).1
    exact take_congr h2 hk'

/-- **One leader a term**: a majority votes for at most one candidate. -/
theorem leader_unique {U : Nat} {c c' : ι} {Q : Finset ι} (hQ : Quorum Q)
    (hv : ∀ p ∈ Q, H.vote p U = some c) (hl : H.leader U = some c') : c = c' := by
  obtain ⟨R, hR, hv'⟩ := h.vote.quorum U c' hl
  obtain ⟨p, hp, hp'⟩ := hQ.inter hR
  have := hv p hp
  rw [hv' p hp'] at this
  exact (Option.some.inj this).symm

/-- The leader of a term has reached it. -/
theorem leader_le {U : Nat} {c : ι} (hl : H.leader U = some c) : U ≤ H.cur c := by
  obtain ⟨Q, hQ, hv⟩ := h.vote.quorum U c hl
  obtain ⟨p, hp, _⟩ := hQ.inter hQ
  exact h.vote.req_le c U (h.vote.vote_req p U c (hv p hp))

end OK

end

/-! ## What steps keep -/

section
variable [Fintype ι] {H H' : Chronicle ι ε} {c : ι}

/-- Blocking only depends on votes cast and terms passed. -/
theorem Blocked.mono {U : Nat} (hb : H.Blocked c U)
    (hcur : ∀ q, H.cur q ≤ H'.cur q)
    (hvote : ∀ q, U < H.cur q ∨ H.cur q = U ∧ H.vote q U ≠ none → H'.vote q U = H.vote q U) :
    H'.Blocked c U := by
  obtain ⟨Q, hQ, hq⟩ := hb
  refine ⟨Q, hQ, fun q hmem => ?_⟩
  obtain ⟨h1, h2⟩ := hq q hmem
  rw [hvote q h2]
  refine ⟨h1, ?_⟩
  have := hcur q
  rcases h2 with h2 | ⟨h2, h3⟩
  · exact .inl (by omega)
  · rcases Nat.lt_or_ge U (H'.cur q) with hlt | hge
    · exact .inl hlt
    · exact .inr ⟨by omega, h3⟩

/-- Fewer positions stay choosable as terms pass and no acknowledgement is added. -/
theorem Choosable.of_cur_le {T i : Nat} (hc : H'.Choosable T i)
    (hcur : ∀ q, H.cur q ≤ H'.cur q) (hack : ∀ q, i ≤ H'.ack q T → i ≤ H.ack q T ∨ H.cur q ≤ T) :
    H.Choosable T i := by
  obtain ⟨Q, hQ, hq⟩ := hc
  refine ⟨Q, hQ, fun q hmem => ?_⟩
  rcases hq q hmem with h | h
  · exact hack q h
  · exact .inr (Nat.le_trans (hcur q) h)

/-- Nobody voted yet in the term that a new candidate enters, as far as it is concerned. -/
theorem VoteOK.vote_next (h : H.VoteOK) : H.vote c (H.cur c + 1) = none := by
  cases hv : H.vote c (H.cur c + 1) with
  | none => rfl
  | some d => exact absurd (h.vote_le c _ d hv) (by omega)

/-- A server has not stood for election in the term after its own. -/
theorem VoteOK.req_next (h : H.VoteOK) : H.req c (H.cur c + 1) = none := by
  by_contra hr
  exact absurd (h.req_le c _ hr) (by omega)

end

/-! ## Extensions -/

/-- `H'` continues `H`. The last positions (`tip`) are not compared: they may move either way. -/
structure Ext (H H' : Chronicle ι ε) : Prop where
  cur : ∀ p, H.cur p ≤ H'.cur p
  vote : ∀ p U c, H.vote p U = some c → H'.vote p U = some c
  req : ∀ c U r, H.req c U = some r → H'.req c U = some r
  leader : ∀ U c, H.leader U = some c → H'.leader U = some c
  ledger : ∀ U, H.ledger U <+: H'.ledger U
  base : ∀ U, H.Elected U → H'.base U = H.base U
  hor : ∀ p, H.hor p ≤ H'.hor p
  ack : ∀ p T, H.ack p T ≤ H'.ack p T
  done : ∀ T i, H.done T i → H'.done T i

namespace Ext

variable {H H' H'' : Chronicle ι ε}

theorem refl (H : Chronicle ι ε) : Ext H H where
  cur := fun _ => Nat.le_refl _
  vote := fun _ _ _ h => h
  req := fun _ _ _ h => h
  leader := fun _ _ h => h
  ledger := fun _ => List.prefix_refl _
  base := fun _ _ => rfl
  hor := fun _ => Nat.le_refl _
  ack := fun _ _ => Nat.le_refl _
  done := fun _ _ h => h

/-- An elected term stays elected. -/
theorem elected (e : Ext H H') {U : Nat} (h : H.Elected U) : H'.Elected U := by
  obtain ⟨c, hc⟩ := Option.ne_none_iff_exists'.1 h
  exact elected_of_leader (e.leader U c hc)

theorem trans (e : Ext H H') (e' : Ext H' H'') : Ext H H'' where
  cur := fun p => Nat.le_trans (e.cur p) (e'.cur p)
  vote := fun p U c h => e'.vote p U c (e.vote p U c h)
  req := fun c U r h => e'.req c U r (e.req c U r h)
  leader := fun U c h => e'.leader U c (e.leader U c h)
  ledger := fun U => (e.ledger U).trans (e'.ledger U)
  base := fun U h => (e'.base U (e.elected h)).trans (e.base U h)
  hor := fun p => Nat.le_trans (e.hor p) (e'.hor p)
  ack := fun p T => Nat.le_trans (e.ack p T) (e'.ack p T)
  done := fun T i h => e'.done T i (e.done T i h)

/-- A cut of a leader's log stays the same. -/
theorem take (e : Ext H H') {V i : Nat} (hi : i ≤ (H.ledger V).length) :
    (H'.ledger V).take i = (H.ledger V).take i := take_of_prefix (e.ledger V) hi

/-- Leaders' logs grow. -/
theorem length (e : Ext H H') (V : Nat) : (H.ledger V).length ≤ (H'.ledger V).length :=
  (e.ledger V).length_le

section
variable [HasTerm ε]

/-- A term of a leader's log stays the same. -/
theorem termAt (e : Ext H H') {V i : Nat} (hi : i ≤ (H.ledger V).length) :
    Lib.termAt (H'.ledger V) i = Lib.termAt (H.ledger V) i :=
  termAt_congr (e.take hi) (Nat.le_refl i)

/-- A position keeps occurring. -/
theorem validPos (e : Ext H H') {x : Pos} (hx : ValidPos H.ledger x) : ValidPos H'.ledger x :=
  ⟨Nat.le_trans hx.1 (e.length _), by rw [e.termAt hx.1, hx.2]⟩

/-- The log that ends at an occurring position stays the same. -/
theorem path (e : Ext H H') {x : Pos} (hx : ValidPos H.ledger x) : H'.path x = H.path x :=
  e.take hx.1

end

end Ext

/-- What `H'` left alone of server `j`: its own variables, and the log and the commits of the term
it leads. -/
structure Frame (H H' : Chronicle ι ε) (j : ι) : Prop where
  cur : H'.cur j = H.cur j
  tip : H'.tip j = H.tip j
  hor : H'.hor j = H.hor j
  vote : H'.vote j (H.cur j) = H.vote j (H.cur j)
  ack : H'.ack j = H.ack j
  ledger : H.leader (H.cur j) = some j → H'.ledger (H.cur j) = H.ledger (H.cur j)
  done : H.leader (H.cur j) = some j → ∀ i, H'.done (H.cur j) i → H.done (H.cur j) i
  leader : H'.leader (H.cur j) = some j → H.leader (H.cur j) = some j

namespace Frame

variable {H H' H'' : Chronicle ι ε} {j : ι}

theorem refl (H : Chronicle ι ε) (j : ι) : Frame H H j where
  cur := rfl
  tip := rfl
  hor := rfl
  vote := rfl
  ack := rfl
  ledger := fun _ => rfl
  done := fun _ _ h => h
  leader := id

/-- What two parts of a history leave alone, the whole leaves alone. -/
theorem trans (e : Ext H H') (f : Frame H H' j) (f' : Frame H' H'' j) : Frame H H'' j where
  cur := f'.cur.trans f.cur
  tip := f'.tip.trans f.tip
  hor := f'.hor.trans f.hor
  vote := by
    have := f'.vote
    rw [f.cur] at this
    exact this.trans f.vote
  ack := f'.ack.trans f.ack
  ledger := fun hl => by
    have := f'.ledger
    rw [f.cur] at this
    exact (this (e.leader _ _ hl)).trans (f.ledger hl)
  done := fun hl i hd => by
    have := f'.done
    rw [f.cur] at this
    exact f.done hl i (this (e.leader _ _ hl) i hd)
  leader := fun hl => by
    have := f'.leader
    rw [f.cur] at this
    exact f.leader (this hl)

end Frame

end Chronicle

end DistLabs.Lib
