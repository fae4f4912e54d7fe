import DistLabs.Lib.Linearizable
import DistLabs.Porcupine.Partition

/-!
# The log of the tests

The clients of a test record every call that has returned, with a time from before the call and one
from after its return (`Recorded`). If all calls have been recorded, and the history of calls and
returns is linearizable, then so is the log (`OpLog.linearizable`), since it knows less about the
order of the calls than the history.
-/

namespace DistLabs.Porcupine

open Lib

variable {σ α κ ρ ι ο : Type}

/-- The times of the events, by a monotonic clock. -/
def Clock (time : Nat → Int) : Prop := ∀ m n, m ≤ n → time m ≤ time n

section
variable (input : κ → ι) (output : ρ → ο) (time : Nat → Int) (events : List (HistoryEvent α κ ρ))

/-- An operation of the log is a call that has returned: `time` has the times of the events. -/
def Recorded (i : α) (elem : Operation ι ο) : Prop :=
  ∃ (m n : Nat) (op : κ) (res : ρ), m < n ∧ events[m]? = some (.call i op) ∧
    events[n]? = some (.ret i res) ∧
    elem.input = input op ∧ elem.output = output res ∧ elem.call ≤ time m ∧ time n ≤ elem.ret

/-- The log has all calls, in the order in which they were recorded. -/
def OpLog (operations : List (Operation ι ο)) : Prop :=
  ∃ ids : List α, ids.Nodup ∧ List.Forall₂ (Recorded input output time events) ids operations ∧
    ∀ i op, .call i op ∈ events → i ∈ ids

end

section
variable {input : κ → ι} {output : ρ → ο} {time : Nat → Int} {events : List (HistoryEvent α κ ρ)}
  {operations : List (Operation ι ο)} {order : List (α × κ)} {step : σ → κ → σ × ρ}
  {model : Model σ ι ο}

/-- Every member of the second list is related to one of the first. -/
theorem exists_of_forall₂ {β γ : Type} {R : β → γ → Prop} {l : List β} {u : List γ}
    (h : List.Forall₂ R l u) {c : γ} (hc : c ∈ u) : ∃ b ∈ l, R b c := by
  induction h with
  | nil => cases hc
  | @cons b c' l u hb _ ih =>
    rcases List.mem_cons.1 hc with rfl | hc
    · exact ⟨b, List.mem_cons_self, hb⟩
    · obtain ⟨b', hb', hR⟩ := ih hc
      exact ⟨b', List.mem_cons_of_mem b hb', hR⟩

/-- The times of the log are those of intervals. -/
theorem OpLog.times (htime : Clock time) (h : OpLog input output time events operations) :
    ∀ elem ∈ operations, elem.call ≤ elem.ret := by
  obtain ⟨ids, -, hrecorded, -⟩ := h
  intro elem helem
  obtain ⟨i, -, m, n, op, res, hlt, -, -, -, -, hcall, hret⟩ := exists_of_forall₂ hrecorded helem
  exact hcall.trans ((htime m n hlt.le).trans hret)

/-- What was over before another call by the clocks had returned before it was made. -/
theorem Recorded.precedes (htime : Clock time) {i j : α} {a b : Operation ι ο}
    (ha : Recorded input output time events i a) (hb : Recorded input output time events j b)
    (hlt : b.ret < a.call) : Precedes events j i := by
  obtain ⟨m, -, op, -, -, hcall, -, -, -, hm, -⟩ := ha
  obtain ⟨-, n, -, res, -, -, hret, -, -, -, hn⟩ := hb
  refine ⟨n, m, res, op, ?_, hret, hcall⟩
  by_contra hle
  have := htime m n (Nat.not_lt.1 hle)
  omega

/-- An order of calls that respects their returns respects the times of the log. -/
theorem orderly_of_recorded (htime : Clock time)
    (hrecorded :
      List.Forall₂ (fun x elem => Recorded input output time events x.1 elem) order operations)
    (hreal : order.Pairwise fun x y => ¬ Precedes events y.1 x.1) :
    Orderly Operation.call Operation.ret operations := by
  induction hrecorded with
  | nil => exact .nil
  | @cons x elem order operations helem hrest ih =>
    obtain ⟨hfirst, hreal⟩ := List.pairwise_cons.1 hreal
    refine List.pairwise_cons.2 ⟨fun b hb hlt => ?_, ih hreal⟩
    obtain ⟨y, hy, hb⟩ := exists_of_forall₂ hrest hb
    exact hfirst y hy (helem.precedes htime hb hlt)

/-- The model accepts what the object does. -/
theorem accepts_of_recorded
    (hunique : ∀ i op op', .call i op ∈ events → .call i op' ∈ events → op = op')
    (hstep : ∀ s op, model.step s (input op) (output (step s op).2) = (true, (step s op).1))
    (hrecorded :
      List.Forall₂ (fun x elem => Recorded input output time events x.1 elem) order operations)
    (hcalled : ∀ x ∈ order, .call x.1 x.2 ∈ events) {s : σ} (hlegal : Legal step events s order) :
    model.Accepts s operations := by
  induction hrecorded generalizing s with
  | nil => trivial
  | @cons x elem order operations helem _ ih =>
    obtain ⟨hx, hcalled⟩ := List.forall_mem_cons.1 hcalled
    obtain ⟨m, n, op, res, -, hcall, hret, hinput, houtput, -⟩ := helem
    obtain rfl := hunique _ _ _ hx (List.mem_of_getElem? hcall)
    obtain ⟨hres, hlegal⟩ := hlegal
    obtain rfl := hres res (List.mem_of_getElem? hret)
    rw [Model.Accepts, hinput, houtput, hstep]
    exact ⟨rfl, ih hcalled hlegal⟩

/-- A log of all calls of a linearizable history is linearizable. -/
theorem OpLog.linearizable (htime : Clock time)
    (hunique : ∀ i op op', .call i op ∈ events → .call i op' ∈ events → op = op')
    (hstep : ∀ s op, model.step s (input op) (output (step s op).2) = (true, (step s op).1))
    (hlin : Lib.Linearizable step model.init events)
    (h : OpLog input output time events operations) :
    model.Linearizable operations := by
  obtain ⟨order, horder⟩ := hlin
  obtain ⟨ids, hnodup, hrecorded, hall⟩ := h
  have hperm : (order.map (·.1)).Perm ids := by
    refine (List.perm_ext_iff_of_nodup horder.nodup hnodup).2 fun i => ⟨fun hi => ?_, fun hi => ?_⟩
    · obtain ⟨x, hx, rfl⟩ := List.mem_map.1 hi
      exact hall _ _ (horder.called x hx)
    · obtain ⟨elem, -, m, n, op, res, -, -, hret, -⟩ := exists_of_forall₂ hrecorded.flip hi
      exact horder.complete i res (List.mem_of_getElem? hret)
  obtain ⟨ops, hops, hperm'⟩ := List.perm_comp_forall₂ hperm hrecorded
  rw [List.forall₂_map_left_iff] at hops
  exact ⟨ops, hperm', orderly_of_recorded htime hops horder.realTime,
    accepts_of_recorded hunique hstep hops horder.called horder.legal⟩

end

end DistLabs.Porcupine
