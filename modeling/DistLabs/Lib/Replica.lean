/-!
# Replicas of a state machine

All replicas of a group apply the commands of one log, in order. A replica that lags is one that
has applied a prefix of it: `replica apply s₀ log k` is the state after the first `k` commands.
Logs only grow, so a state that a replica had once is one that a lagging replica may still have.
-/

namespace DistLabs.Lib

variable {σ κ : Type}

/-- The state after the first `k` commands of the log. -/
def replica (apply : σ → κ → σ) (s₀ : σ) (log : List κ) (k : Nat) : σ :=
  (log.take k).foldl apply s₀

variable {apply : σ → κ → σ} {s₀ : σ} {log : List κ} {k : Nat}

/-- No replica is ahead of the log. -/
theorem replica_of_length_le (h : log.length ≤ k) :
    replica apply s₀ log k = replica apply s₀ log log.length := by
  rw [replica, replica, List.take_of_length_le h, List.take_length]

/-- A replica does not see what is appended later. -/
theorem replica_append (h : k ≤ log.length) (l : List κ) :
    replica apply s₀ (log ++ l) k = replica apply s₀ log k := by
  rw [replica, replica, List.take_append_of_le_length h]

/-- Applying one more command. -/
theorem replica_succ {c : κ} (h : log[k]? = some c) :
    replica apply s₀ log (k + 1) = apply (replica apply s₀ log k) c := by
  rw [replica, replica, List.take_add_one, h, List.foldl_append]
  rfl

/-- The command that is appended is applied to what the log led to before. -/
theorem replica_concat (c : κ) :
    replica apply s₀ (log ++ [c]) (log.length + 1) =
      apply (replica apply s₀ log log.length) c := by
  rw [replica_succ List.getElem?_concat_length, replica_append (Nat.le_refl _)]

/-- What the log has stays in place when it grows. -/
theorem getElem?_grown {log' : List κ} {c : κ} (h : log <+: log') (hc : log[k]? = some c) :
    log'[k]? = some c := by
  obtain ⟨l, rfl⟩ := h
  rw [List.getElem?_append_left (List.getElem?_eq_some_iff.1 hc).1, hc]

/-- What a log has after a command was appended. -/
theorem of_getElem?_concat {c d : κ} (h : (log ++ [c])[k]? = some d) :
    log[k]? = some d ∨ k = log.length ∧ d = c := by
  rcases Nat.lt_trichotomy k log.length with hlt | rfl | hlt
  · rw [List.getElem?_append_left hlt] at h
    exact .inl h
  · rw [List.getElem?_concat_length] at h
    exact .inr ⟨rfl, (Option.some.inj h).symm⟩
  · have hlen : (log ++ [c]).length ≤ k := by rwa [List.length_append]
    rw [List.getElem?_eq_none hlen] at h
    cases h

/-- What every command respects holds between a replica and one that is further. -/
theorem replica_rel {R : σ → σ → Prop} (hrefl : ∀ s, R s s)
    (htrans : ∀ {s s' s''}, R s s' → R s' s'' → R s s'') (hstep : ∀ s c, R s (apply s c))
    {k' : Nat} (h : k ≤ k') : R (replica apply s₀ log k) (replica apply s₀ log k') := by
  have hfold : ∀ (l : List κ) (s : σ), R s (l.foldl apply s) := by
    intro l
    induction l with
    | nil => exact hrefl
    | cons c l ih => exact fun s => htrans (hstep s c) (ih (apply s c))
  obtain ⟨j, rfl⟩ := Nat.exists_eq_add_of_le h
  rw [replica, replica, List.take_add, List.foldl_append]
  exact hfold _ _

end DistLabs.Lib
