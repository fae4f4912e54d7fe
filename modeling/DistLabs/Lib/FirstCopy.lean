import DistLabs.Lib.Answers
import DistLabs.Lib.Requests

/-!
# Services with a table of requests

A service enters every operation that it executes in a table of requests, and a handler only
answers at once what is in the table (`Remembers`). A clerk may have sent an operation many times,
so that the log has copies of it. Before the first copy there is no later operation of its client
(`request_lt`), so the first copy is the one that is not known when it is executed
(`knows_iff_not_first`), and an operation that has returned has a copy from before (`exists_copy`).
-/

namespace DistLabs.Lib

variable {σ κ α ρ : Type}

/-- The table has the request, or a later one of its client. -/
def Knows (table : GoMap Int Int) (i : Int × Int) : Prop := ∃ last ∈ table[i.1]?, i.2 ≤ last

/-- Operations that are executed are entered in `table`, and only those are answered at once. -/
structure Machine.Remembers (m : Machine σ κ α ρ) (table : σ → GoMap Int Int) : Prop where
  init : table m.init = ∅
  execute : ∀ {s op s' a}, m.execute s op = some (s', a) →
    table s' = enterRequest (table s) (m.clientId op) (m.requestId op)
  known : ∀ {s op res}, m.known s op = some res → Knows (table s) (m.id op)

namespace Service

section
variable {m : Machine σ κ α ρ} {table : σ → GoMap Int Int} {log : List (ServiceEntry κ)}
  {k p q : Nat}
  {s : σ} {op op' : κ}

/-- Nothing is executed after a panic. -/
theorem exists_stateAt_of_succ {s' : σ} (h : m.stateAt log (k + 1) = some s') :
    ∃ s, m.stateAt log k = some s := by
  cases hk : log[k]? with
  | none =>
    have hlen := List.getElem?_eq_none_iff.1 hk
    rw [Machine.stateAt, replica_of_length_le (hlen.trans k.le_succ),
      ← replica_of_length_le hlen] at h
    exact ⟨s', h⟩
  | some e =>
    rw [Machine.stateAt, replica_succ hk] at h
    obtain ⟨s, hs, -⟩ := Option.bind_eq_some_iff.1 h
    exact ⟨s, hs⟩

/-- If a beginning of the log can be executed, then so can every shorter one. -/
theorem stateAt_of_le (hle : p ≤ q) (h : (m.stateAt log q).isSome) : (m.stateAt log p).isSome := by
  induction hle with
  | refl => exact h
  | step _ ih =>
    obtain ⟨s', hs'⟩ := Option.isSome_iff_exists.1 h
    exact ih (Option.isSome_iff_exists.2 (exists_stateAt_of_succ hs'))

/-- Executing the entry at position `k`. -/
theorem exists_execute {e : ServiceEntry κ} {s' : σ} (he : log[k]? = some e)
    (hs : m.stateAt log k = some s) (hs' : m.stateAt log (k + 1) = some s') :
    ∃ a, m.execute s e.op = some (s', a) := by
  rw [stateAt_succ he hs, Option.map_eq_some_iff] at hs'
  obtain ⟨⟨s', a⟩, hexec, rfl⟩ := hs'
  exact ⟨a, hexec⟩

variable (hm : m.Remembers table)
include hm

/-- What is in the table was executed. -/
theorem exists_of_table {c r : Int} (hs : m.stateAt log k = some s) (h : r ∈ (table s)[c]?) :
    ∃ q < k, ∃ e, log[q]? = some e ∧ m.id e.op = (c, r) := by
  induction k generalizing s with
  | zero =>
    cases hs
    rw [hm.init, Option.mem_def, Std.ExtTreeMap.getElem?_empty] at h
    cases h
  | succ k ih =>
    have hold : ∀ {s₀}, m.stateAt log k = some s₀ → r ∈ (table s₀)[c]? →
        ∃ q < k + 1, ∃ e, log[q]? = some e ∧ m.id e.op = (c, r) := by
      intro s₀ hs₀ h
      obtain ⟨q, hq, he⟩ := ih hs₀ h
      exact ⟨q, by omega, he⟩
    cases hk : log[k]? with
    | none =>
      have hlen := List.getElem?_eq_none_iff.1 hk
      rw [Machine.stateAt, replica_of_length_le (hlen.trans k.le_succ),
        ← replica_of_length_le hlen] at hs
      exact hold hs h
    | some e =>
      obtain ⟨s₀, hs₀⟩ := exists_stateAt_of_succ hs
      obtain ⟨a, hexec⟩ := exists_execute hk hs₀ hs
      rw [hm.execute hexec] at h
      rcases mem_enterRequest h with h | ⟨hc, hr⟩
      · exact hold hs₀ h
      · exact ⟨k, by omega, e, hk, Prod.ext hc hr⟩

/-- What was executed stays known. -/
theorem knows_of_lt {e : ServiceEntry κ} (he : log[q]? = some e) (hlt : q < k)
    (hs : m.stateAt log k = some s) : Knows (table s) (m.id e.op) := by
  induction k generalizing s with
  | zero => omega
  | succ k ih =>
    obtain ⟨s₀, hs₀⟩ := exists_stateAt_of_succ hs
    cases hk : log[k]? with
    | none =>
      have hlen := List.getElem?_eq_none_iff.1 hk
      have hq := (List.getElem?_eq_some_iff.1 he).1
      rw [Machine.stateAt, replica_of_length_le (hlen.trans k.le_succ),
        ← replica_of_length_le hlen] at hs
      exact ih (by omega) hs
    | some e' =>
      obtain ⟨a, hexec⟩ := exists_execute hk hs₀ hs
      rw [hm.execute hexec]
      rcases Nat.lt_or_eq_of_le (Nat.lt_succ_iff.1 hlt) with hlt | rfl
      · obtain ⟨last, hlast, hle⟩ := ih hlt hs₀
        obtain ⟨last', hlast', hle'⟩ := enterRequest_le hlast
        exact ⟨last', hlast', hle.trans hle'⟩
      · rw [hk] at he
        cases he
        exact enterRequest_known _ _ _

end

/-! ## Copies -/

section
variable {m : Machine σ κ α ρ} {table : σ → GoMap Int Int} {net : Service σ κ α ρ} {k p q t : Nat}
  {s : σ} {op op' : κ} {res : ρ}

/-- The operation at a position of the log. -/
def CopyAt (net : Service σ κ α ρ) (p : Nat) (op : κ) : Prop :=
  ∃ term, net.log[p]? = some ⟨term, op⟩

/-- The first copy. -/
def FirstAt (net : Service σ κ α ρ) (p : Nat) (op : κ) : Prop :=
  CopyAt net p op ∧ ∀ q < p, ¬ CopyAt net q op

theorem CopyAt.unique (h : CopyAt net p op) (h' : CopyAt net p op') : op = op' := by
  obtain ⟨term, hp⟩ := h
  obtain ⟨term', hp'⟩ := h'
  rw [hp] at hp'
  cases hp'
  rfl

/-- An operation has one first copy. -/
theorem FirstAt.position_unique (h : FirstAt net p op) (h' : FirstAt net q op) : p = q := by
  rcases Nat.lt_trichotomy p q with hlt | heq | hlt
  · exact absurd h.1 (h'.2 p hlt)
  · exact heq
  · exact absurd h'.1 (h.2 q hlt)

/-- Where there is a copy, there is a first one. -/
theorem CopyAt.exists_first (h : CopyAt net p op) : ∃ q ≤ p, FirstAt net q op := by
  classical
  have hex : ∃ p, CopyAt net p op := ⟨p, h⟩
  exact ⟨Nat.find hex, Nat.find_min' hex h, Nat.find_spec hex, fun q hq => Nat.find_min hex hq⟩

variable (h : Inv m net)
include h

/-- An operation in the log was called before it got there. -/
theorem CopyAt.called (hop : CopyAt net p op) :
    ∃ t ≤ p, (.call (m.id op) op, t) ∈ net.history := by
  obtain ⟨term, hp⟩ := hop
  exact h.logged p _ hp

/-- Operations of the log with one identity are the same. -/
theorem CopyAt.eq_of_id (hop : CopyAt net p op) (hop' : CopyAt net q op')
    (hid : m.id op = m.id op') :
    op = op' := by
  obtain ⟨t, -, hcall⟩ := hop.called h
  obtain ⟨t', -, hcall'⟩ := hop'.called h
  rw [← hid] at hcall'
  exact (h.clients.call_unique _ _ _ _ _ hcall hcall').1

variable (hm : m.Remembers table)
include hm

/-- Before the first copy of an operation there is no later operation of its client. By induction
on the position: a later call would come after the return of the operation, and its answer needs a
copy, or an earlier operation of that kind. -/
theorem request_lt (hcalled : net.Called m op) (hno : ∀ q < k, ¬ CopyAt net q op) (hq : q < k)
    (hop : CopyAt net q op') (hclient : m.clientId op' = m.clientId op) :
    m.requestId op' < m.requestId op := by
  induction q using Nat.strongRecOn generalizing op' with
  | ind q ih =>
    obtain ⟨t₀, hcall⟩ := hcalled
    obtain ⟨t', ht', hcall'⟩ := hop.called h
    by_contra hge
    have hne : m.requestId op' ≠ m.requestId op := by
      intro heq
      have hid : m.id op' = m.id op := Prod.ext hclient heq
      rw [hid] at hcall'
      obtain rfl := (h.clients.call_unique _ _ _ _ _ hcall hcall').1
      exact hno q hq hop
    have hlt : m.requestId op < m.requestId op' := by omega
    have hreq : m.requestId op < (net.clerks (m.clientId op)).requestId := by
      rcases (h.clients.call _ _ _ hcall').2 with hlt' | hpend
      · have hlt'' : m.requestId op' < (net.clerks (m.clientId op')).requestId := hlt'
        rw [hclient] at hlt''
        omega
      · have hid : m.requestId op' = (net.clerks (m.clientId op')).requestId :=
          congrArg Prod.snd (h.clients.pending _ _ hpend).1
        rw [hclient] at hid
        omega
    obtain ⟨res, t, hret⟩ := h.clients.returned _ _ _ hcall hreq
    have hle : t ≤ t' := by
      refine h.clients.sequential (m.clientId op) (m.requestId op)
        (m.requestId op') res op' t t' hret ?_
        hlt
      rw [← hclient]
      exact hcall'
    obtain ⟨op₁, t₁, source, hcall₁, hans⟩ := h.rets _ _ _ hret
    obtain rfl := (h.clients.call_unique _ _ _ _ _ hcall hcall₁).1
    cases hans with
    | logged hp hlog => exact hno _ (by omega) ⟨_, hlog⟩
    | known hk hstore hres =>
      obtain ⟨r, hr, hler⟩ := hm.known hres
      obtain ⟨q', hq', ⟨term, op''⟩, he, hid⟩ := exists_of_table hm hstore hr
      have hlt' := ih q' (by omega) (by omega) ⟨term, he⟩ (congrArg Prod.fst hid)
      have hreq' : m.requestId op'' = r := congrArg Prod.snd hid
      have hler' : m.requestId op ≤ r := hler
      omega

/-- An operation is not known before its first copy. -/
theorem not_knows (hcalled : net.Called m op) (hno : ∀ q < k, ¬ CopyAt net q op)
    (hs : m.stateAt net.log k = some s) : ¬ Knows (table s) (m.id op) := by
  rintro ⟨r, hr, hle⟩
  obtain ⟨q, hq, ⟨term, op'⟩, he, hid⟩ := exists_of_table hm hs hr
  have hlt := request_lt h hm hcalled hno hq ⟨term, he⟩ (congrArg Prod.fst hid)
  have hreq : m.requestId op' = r := congrArg Prod.snd hid
  have hle' : m.requestId op ≤ r := hle
  omega

/-- A copy is known when it is executed if and only if it is not the first one. -/
theorem knows_iff_not_first (hop : CopyAt net p op) (hs : m.stateAt net.log p = some s) :
    Knows (table s) (m.id op) ↔ ¬ FirstAt net p op := by
  constructor
  · intro hknows hfirst
    obtain ⟨t, -, hcall⟩ := hop.called h
    exact not_knows h hm ⟨t, hcall⟩ hfirst.2 hs hknows
  · intro hfirst
    have hex : ∃ q < p, CopyAt net q op := by
      by_contra hno
      exact hfirst ⟨hop, fun q hq hcopy => hno ⟨q, hq, hcopy⟩⟩
    obtain ⟨q, hq, term, he⟩ := hex
    exact knows_of_lt hm he hq hs

/-- An operation that has returned has a copy from before, which has been executed. -/
theorem exists_copy {i : Int × Int} {t₀ : Nat} (hcall : (.call i op, t₀) ∈ net.history)
    (hret : (.ret i res, t) ∈ net.history) :
    ∃ q < t, CopyAt net q op ∧ (m.stateAt net.log (q + 1)).isSome := by
  obtain ⟨op₁, t₁, source, hcall₁, hans⟩ := h.rets _ _ _ hret
  obtain rfl := (h.clients.call_unique _ _ _ _ _ hcall hcall₁).1
  obtain ⟨rfl, -⟩ := h.clients.call _ _ _ hcall
  cases hans with
  | logged hp hlog hstore hexec =>
    refine ⟨_, hp, ⟨_, hlog⟩, ?_⟩
    rw [stateAt_succ hlog hstore, hexec]
    rfl
  | @known k _ store _ hk hstore hres =>
    by_contra hno
    refine not_knows h hm ⟨t₀, hcall⟩ (fun q hq hcopy => hno ⟨q, by omega, hcopy, ?_⟩) hstore
      (hm.known hres)
    exact stateAt_of_le hq (by rw [hstore]; rfl)

end

end Service

end DistLabs.Lib
