/-!
# Linearizability

A history is the sequence of the calls and returns that clients see. It is linearizable with
respect to a sequential object if the calls can be put in one order (`Linearization`) in which
every call that returned has the result that the object gives it, and a call that returned before
another one was made comes first. Calls that have not returned may take part in the order or not.

`Linearizable.of_points` is the rule for services that agree on a log: a call takes effect at one
position of the log, and the positions respect the order of returns and calls. If the events carry
the length of the log at the time (`Linearizable.of_times`), then the position lies between the
times of the call and of its return.
-/

namespace DistLabs.Lib

/-- A client calls an operation, or a call returns. Every call has its own identity. -/
inductive HistoryEvent (ι κ ρ : Type) where
  | call (i : ι) (op : κ)
  | ret (i : ι) (res : ρ)
  deriving DecidableEq

namespace HistoryEvent

variable {ι κ ρ : Type}

/-- The operation that is called. -/
def op? : HistoryEvent ι κ ρ → Option κ
  | .call _ op => some op
  | .ret _ _ => none

/-- The identity of the call. -/
def callId : HistoryEvent ι κ ρ → ι
  | .call i _ => i
  | .ret i _ => i

end HistoryEvent

section
variable {ι κ ρ σ : Type}

/-- Call `a` returned before call `b` was made. -/
def Precedes (events : List (HistoryEvent ι κ ρ)) (a b : ι) : Prop :=
  ∃ (m n : Nat) (res : ρ) (op : κ), m < n ∧ events[m]? = some (.ret a res) ∧
    events[n]? = some (.call b op)

/-- The object gives the calls of a list, in this order, the results that they returned with. -/
def Legal (step : σ → κ → σ × ρ) (events : List (HistoryEvent ι κ ρ)) : σ → List (ι × κ) → Prop
  | _, [] => True
  | s, (i, op) :: order => (∀ res, .ret i res ∈ events → res = (step s op).2) ∧
      Legal step events (step s op).1 order

/-- An order of calls that explains a history. -/
structure Linearization (step : σ → κ → σ × ρ) (init : σ) (events : List (HistoryEvent ι κ ρ))
    (order : List (ι × κ)) : Prop where
  called : ∀ x ∈ order, .call x.1 x.2 ∈ events
  nodup : (order.map (·.1)).Nodup
  complete : ∀ i res, .ret i res ∈ events → i ∈ order.map (·.1)
  realTime : order.Pairwise fun x y => ¬ Precedes events y.1 x.1
  legal : Legal step events init order

/-- Some order explains the history. -/
def Linearizable (step : σ → κ → σ × ρ) (init : σ) (events : List (HistoryEvent ι κ ρ)) : Prop :=
  ∃ order, Linearization step init events order

variable {step : σ → κ → σ × ρ} {events : List (HistoryEvent ι κ ρ)}

/-- The calls that take effect from position `k` on. -/
theorem legal_filterMap {point : Nat → Option (ι × κ)} {abs : Nat → σ}
    (hskip : ∀ p, point p = none → abs (p + 1) = abs p)
    (hstep : ∀ p x, point p = some x → abs (p + 1) = (step (abs p) x.2).1 ∧
      ∀ res, .ret x.1 res ∈ events → res = (step (abs p) x.2).2) (n k : Nat) :
    Legal step events (abs k) ((List.range' k n).filterMap point) := by
  induction n generalizing k with
  | zero => trivial
  | succ n ih =>
    rw [List.range'_succ]
    cases hp : point k with
    | none =>
      rw [List.filterMap_cons_none hp, ← hskip k hp]
      exact ih (k + 1)
    | some x =>
      obtain ⟨hnext, hres⟩ := hstep k x hp
      rw [List.filterMap_cons_some hp]
      refine ⟨hres, ?_⟩
      rw [← hnext]
      exact ih (k + 1)

/-- If every call takes effect at one position of a log, then the history is linearizable:
`point p` is the call that takes effect at position `p`, and `abs p` is the state of the object
before it. -/
theorem Linearizable.of_points (point : Nat → Option (ι × κ)) (abs : Nat → σ) (n : Nat)
    (hcalled : ∀ p x, point p = some x → .call x.1 x.2 ∈ events)
    (hunique : ∀ p q x y, point p = some x → point q = some y → x.1 = y.1 → p = q)
    (hcomplete : ∀ i res, .ret i res ∈ events → ∃ p < n, ∃ op, point p = some (i, op))
    (htime : ∀ p q x y, point p = some x → point q = some y → Precedes events y.1 x.1 → q < p)
    (hskip : ∀ p, point p = none → abs (p + 1) = abs p)
    (hstep : ∀ p x, point p = some x → abs (p + 1) = (step (abs p) x.2).1 ∧
      ∀ res, .ret x.1 res ∈ events → res = (step (abs p) x.2).2) :
    Linearizable step (abs 0) events := by
  have hsorted : ((List.range n).filterMap point).Pairwise fun x y => ∃ p q, p < q ∧
      point p = some x ∧ point q = some y := by
    rw [List.pairwise_filterMap]
    exact List.pairwise_lt_range.imp fun {p q} hlt x hx y hy => ⟨p, q, hlt, hx, hy⟩
  refine ⟨(List.range n).filterMap point, ?_, ?_, ?_, ?_, ?_⟩
  · intro x hx
    obtain ⟨p, -, hp⟩ := List.mem_filterMap.1 hx
    exact hcalled p x hp
  · rw [List.Nodup, List.pairwise_map]
    refine hsorted.imp ?_
    rintro x y ⟨p, q, hlt, hx, hy⟩ heq
    exact Nat.ne_of_lt hlt (hunique p q x y hx hy heq)
  · intro i res hres
    obtain ⟨p, hp, op, hpoint⟩ := hcomplete i res hres
    exact List.mem_map.2 ⟨(i, op), List.mem_filterMap.2 ⟨p, List.mem_range.2 hp, hpoint⟩, rfl⟩
  · refine hsorted.imp ?_
    rintro x y ⟨p, q, hlt, hx, hy⟩ hprec
    exact Nat.lt_asymm hlt (htime p q x y hx hy hprec)
  · rw [List.range_eq_range']
    exact legal_filterMap hskip hstep n 0

variable {history : List (HistoryEvent ι κ ρ × Nat)} {a b : ι}

/-- Times do not decrease when an event is recorded. -/
theorem times_record {n : Nat} (htimes : history.Pairwise (·.2 ≤ ·.2))
    (hle : ∀ x ∈ history, x.2 ≤ n)
    (e : HistoryEvent ι κ ρ) : (history ++ [(e, n)]).Pairwise (·.2 ≤ ·.2) := by
  refine List.pairwise_append.2 ⟨htimes, List.pairwise_singleton _ _, fun x hx y hy => ?_⟩
  rw [List.mem_singleton.1 hy]
  exact hle x hx

/-- No event is later than the one that is recorded now. -/
theorem time_le_record {n : Nat} (hle : ∀ x ∈ history, x.2 ≤ n) (e : HistoryEvent ι κ ρ) :
    ∀ x ∈ history ++ [(e, n)], x.2 ≤ n := by
  intro x hx
  rcases List.mem_append.1 hx with hx | hx
  · exact hle x hx
  · obtain rfl := List.mem_singleton.1 hx
    exact Nat.le_refl n

/-- Times do not decrease, so a return before a call is not later. -/
theorem Precedes.exists_times (htimes : history.Pairwise (·.2 ≤ ·.2))
    (h : Precedes (history.map (·.1)) a b) : ∃ res tret op tcall,
      (.ret a res, tret) ∈ history ∧ (.call b op, tcall) ∈ history ∧ tret ≤ tcall := by
  obtain ⟨m, n, res, op, hlt, hm, hn⟩ := h
  rw [List.getElem?_map, Option.map_eq_some_iff] at hm hn
  obtain ⟨⟨e, tret⟩, hret, rfl⟩ := hm
  obtain ⟨⟨e', tcall⟩, hcall, rfl⟩ := hn
  refine ⟨res, tret, op, tcall, List.mem_of_getElem? hret, List.mem_of_getElem? hcall, ?_⟩
  obtain ⟨hlen, hget⟩ := List.getElem?_eq_some_iff.1 hret
  obtain ⟨hlen', hget'⟩ := List.getElem?_eq_some_iff.1 hcall
  have hle := List.pairwise_iff_getElem.1 htimes m n hlen hlen' hlt
  rwa [hget, hget'] at hle

/-- The rule for histories with times. -/
theorem Linearizable.of_times (point : Nat → Option (ι × κ)) (abs : Nat → σ) (n : Nat)
    (htimes : history.Pairwise (·.2 ≤ ·.2))
    (hcalled : ∀ p x, point p = some x → ∃ t, (.call x.1 x.2, t) ∈ history)
    (hunique : ∀ p q x y, point p = some x → point q = some y → x.1 = y.1 → p = q)
    (hcomplete : ∀ i res t, (.ret i res, t) ∈ history → ∃ p < n, ∃ op, point p = some (i, op))
    (hafter : ∀ p x op t, point p = some x → (.call x.1 op, t) ∈ history → t ≤ p)
    (hbefore : ∀ p x res t, point p = some x → (.ret x.1 res, t) ∈ history → p < t)
    (hskip : ∀ p, point p = none → abs (p + 1) = abs p)
    (hstep : ∀ p x, point p = some x → abs (p + 1) = (step (abs p) x.2).1 ∧
      ∀ res t, (.ret x.1 res, t) ∈ history → res = (step (abs p) x.2).2) :
    Linearizable step (abs 0) (history.map (·.1)) := by
  have hmem : ∀ {e}, e ∈ history.map (·.1) → ∃ t, (e, t) ∈ history := by
    intro e he
    obtain ⟨⟨e, t⟩, hmem, rfl⟩ := List.mem_map.1 he
    exact ⟨t, hmem⟩
  refine .of_points point abs n ?_ hunique ?_ ?_ hskip ?_
  · intro p x hx
    obtain ⟨t, hcall⟩ := hcalled p x hx
    exact List.mem_map_of_mem hcall
  · intro i res hres
    obtain ⟨t, hret⟩ := hmem hres
    exact hcomplete i res t hret
  · intro p q x y hx hy hprec
    obtain ⟨res, tret, op, tcall, hret, hcall, hle⟩ := hprec.exists_times htimes
    have hq := hbefore q y res tret hy hret
    have hp := hafter p x op tcall hx hcall
    omega
  · intro p x hx
    obtain ⟨hnext, hres⟩ := hstep p x hx
    refine ⟨hnext, fun res hret => ?_⟩
    obtain ⟨t, hret⟩ := hmem hret
    exact hres res t hret

end

end DistLabs.Lib
