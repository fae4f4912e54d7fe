import DistLabs.Lib.Transition
import DistLabs.Porcupine.Operations
import Mathlib.Algebra.BigOperators.Group.Finset.Basic
import Mathlib.Algebra.Order.BigOperators.Group.Finset
import Mathlib.Data.List.ReduceOption

/-!
# The partitions of a history are checked in parallel

`checkParallel` starts a goroutine for every partition of a history, which runs `checkSingle` and
sends the result over a channel. The events of the system are the iterations of the searches, the
results that are sent and received, and the timeout, in any order. A search that is killed says
false; but `kill` is only set when no further result counts.
-/

namespace DistLabs.Porcupine

open Lib

variable {σ ι ο : Type}

/-- `CheckResult`. -/
inductive CheckResult where
  | unknown
  | ok
  | illegal
  deriving DecidableEq

/-- Where a goroutine is: in the loop of `checkSingle`, behind the assignment to `longest[i]`, at
its end. -/
inductive Worker (σ : Type) where
  | running (c : Search σ)
  | returned (ok : Bool)
  | sent

/-- The goroutine has sent its result. -/
def Worker.isSent : Worker σ → Bool
  | .sent => true
  | _ => false

/-- Where `checkParallel` is: in the loop with `select`, behind it, at its end, with the result and
`partialLinearizations`. -/
inductive Phase where
  | loop
  | afterLoop
  | returned (result : CheckResult) (info : List (List (List Nat)))

/-- How many events are left, for `checkParallel` itself. -/
def Phase.cost : Phase → Nat
  | .loop => 2
  | .afterLoop => 1
  | .returned .. => 0

/-- The variables of `checkParallel`, and its goroutines. -/
structure Parallel (σ : Type) where
  workers : List (Worker σ)
  /-- What is in the channel `results`. -/
  results : List Bool := []
  longest : List Longest
  kill : Bool := false
  ok : Bool := true
  timedOut : Bool := false
  count : Nat := 0
  phase : Phase := .loop

/-- What the goroutines and the loop of `checkParallel` do. -/
inductive ParallelEvent where
  /-- An iteration of the search in a partition. -/
  | work (i : Nat)
  /-- `results <- ok` -/
  | send (i : Nat)
  /-- `case result := <-results` -/
  | receive
  /-- `case <-timeoutChan` -/
  | timeout
  /-- `<-results`, behind the loop. -/
  | drain
  /-- The rest of the function. -/
  | finish

/-- The unique linearizations in one of the slices `longest[i]`. The source tells them apart by
their pointers and lists them in the order of a map; here two of the same content are one, and they
are listed in the order of the slice. Nothing depends on either. -/
def partials (longest : Longest) : List (List Nat) := longest.reduceOption.dedup

namespace Parallel

/-- The goroutines are started. -/
def start (model : Model σ ι ο) (history : List (List (Entry ι ο))) : Parallel σ where
  workers := history.map fun subhistory => .running (Search.start model subhistory)
  longest := history.map fun _ => []

section
variable (model : Model σ ι ο) (history : List (List (Entry ι ο))) (computeInfo : Bool)
  (timeout : Int)

/-- An iteration of a search; when it returns, the result goes to `longest[i]`. -/
def work (p : Parallel σ) (i : Nat) : Option (Parallel σ) := do
  let subhistory ← history[i]?
  match ← p.workers[i]? with
  | .running c =>
    match ← c.iterate model (makeLinkedEntries subhistory).nodes computeInfo
      subhistory.length p.kill with
    | .running c => some { p with workers := p.workers.set i (.running c) }
    | .returned ok l =>
      some { p with workers := p.workers.set i (.returned ok), longest := p.longest.set i l }
  | _ => none

/-- A goroutine sends its result; the channel has a buffer for `len(history)` results. -/
def send (p : Parallel σ) (i : Nat) : Option (Parallel σ) := do
  match ← p.workers[i]? with
  | .returned ok =>
    if p.results.length < history.length then
      some { p with workers := p.workers.set i .sent, results := p.results ++ [ok] }
    else none
  | _ => none

/-- A result is received in the loop. -/
def receive (p : Parallel σ) : Option (Parallel σ) :=
  match p.phase, p.results with
  | .loop, result :: results =>
    let p := { p with results, count := p.count + 1, ok := p.ok && result }
    if !p.ok && !computeInfo then some { p with kill := true, phase := .afterLoop }
    else if history.length ≤ p.count then some { p with phase := .afterLoop }
    else some p
  | _, _ => none

/-- The timeout, if there is one, ends the loop. -/
def expire (p : Parallel σ) : Option (Parallel σ) :=
  match p.phase with
  | .loop =>
    if 0 < timeout then
      some { p with timedOut := true, kill := true, phase := .afterLoop } else none
  | _ => none

/-- With `computeInfo` the other results are received, too. -/
def drain (p : Parallel σ) : Option (Parallel σ) :=
  match p.phase, p.results with
  | .afterLoop, _ :: results =>
    if computeInfo ∧ p.count < history.length then
      some { p with results, count := p.count + 1 }
    else none
  | _, _ => none

/-- The result of `checkParallel`. -/
def result (p : Parallel σ) : CheckResult :=
  if !p.ok then .illegal else if p.timedOut then .unknown else .ok

/-- `checkParallel` returns. -/
def finish (p : Parallel σ) : Option (Parallel σ) :=
  match p.phase with
  | .afterLoop =>
    if computeInfo ∧ p.count < history.length then none
    else some { p with
      phase := .returned p.result (if computeInfo then p.longest.map partials else []) }
  | _ => none

/-- The events of `checkParallel`. -/
def step (p : Parallel σ) : ParallelEvent → Option (Parallel σ)
  | .work i => p.work model history computeInfo i
  | .send i => p.send history i
  | .receive => p.receive history computeInfo
  | .timeout => p.expire timeout
  | .drain => p.drain history computeInfo
  | .finish => p.finish history computeInfo

end

/-! ## What holds in all runs -/

/-- The number of iterations after which a search is over. -/
def bound (subhistory : List (Entry ι ο)) : Nat :=
  (subhistory.length + 2) ^ (subhistory.length / 2 + 1)

section
variable (model : Model σ ι ο) (history : List (List (Entry ι ο))) (timeout : Int)

/-- All calls of a partition can be taken. -/
def Good (i : Nat) : Prop :=
  ∀ subhistory, history[i]? = some subhistory →
    Completes model (nodesOf subhistory) (List.range subhistory.length) model.init

/-- A goroutine is in order, and has at most this many steps left. -/
inductive WorkerOK (subhistory : List (Entry ι ο)) : Worker σ → Nat → Prop where
  | running {c : Search σ} {r : Nat} (h : InOrder model subhistory (subhistory.length / 2) r c) :
      WorkerOK subhistory (.running c) (bound subhistory + 2 - r)
  | returned (ok : Bool) : WorkerOK subhistory (.returned ok) 1
  | sent : WorkerOK subhistory .sent 0

/-- As long as no search is killed, the results are right: those that have been received are in
`ok`, and the others wait in the channel. -/
structure Verdicts (p : Parallel σ) : Prop where
  returned : ∀ i ok, p.workers[i]? = some (.returned ok) → (ok = true ↔ Good model history i)
  arrived : ∃ received waiting : List Nat,
    (∀ i, i ∈ received ++ waiting ↔ p.workers[i]? = some .sent) ∧
    List.Forall₂ (fun i ok => ok = true ↔ Good model history i) waiting p.results ∧
    (p.ok = true ↔ ∀ i ∈ received, Good model history i)

/-- What `checkParallel` returns is right. -/
structure ReturnsOK (result : CheckResult) (info : List (List (List Nat))) : Prop where
  ok : result = .ok → ∀ i < history.length, Good model history i
  illegal : result = .illegal → ∃ i < history.length, ¬ Good model history i
  unknown : result = .unknown → 0 < timeout
  info : ∀ (i : Nat) subhistory l, history[i]? = some subhistory → info[i]? = some l →
    ∀ ids ∈ l, IsPartial model subhistory ids

/-- What holds in all runs of the goroutines and of what has been received; `costs` has, for every
goroutine, how many steps it has left at most. -/
structure Core (p : Parallel σ) (costs : List Nat) : Prop where
  length : p.workers.length = history.length
  costs_length : costs.length = history.length
  worker : ∀ (i : Nat) subhistory w cost, history[i]? = some subhistory → p.workers[i]? = some w →
    costs[i]? = some cost → WorkerOK model subhistory w cost
  longest : ∀ (i : Nat) subhistory l, history[i]? = some subhistory → p.longest[i]? = some l →
    ∀ ids, some ids ∈ l → IsPartial model subhistory ids
  count : p.count + p.results.length = p.workers.countP Worker.isSent
  verdicts : p.phase = .loop → Verdicts model history p
  timedOut : p.timedOut = true → 0 < timeout
  illegal : p.ok = false → ∃ i < history.length, ¬ Good model history i

/-- In the loop no search is killed, and results are missing. Behind it, if nothing was wrong and
there was no timeout, all results were right. -/
def PhaseOK (p : Parallel σ) : Prop :=
  match p.phase with
  | .loop => p.kill = false ∧ p.timedOut = false ∧ (p.count < history.length ∨ history = [])
  | .afterLoop => p.ok = true → p.timedOut = false → ∀ i < history.length, Good model history i
  | .returned result info => ReturnsOK model history timeout result info

/-- What holds in all runs. -/
structure Sound (p : Parallel σ) (costs : List Nat) :
    Prop extends Core model history timeout p costs where
  phase : PhaseOK model history timeout p

end

/-- How many events are left at most. -/
def total (history : List (List (Entry ι ο))) (p : Parallel σ) (costs : List Nat) : Nat :=
  costs.sum + (history.length - p.count) + p.phase.cost

/-- How many events there are at most. -/
def maxSteps (history : List (List (Entry ι ο))) : Nat :=
  (history.map fun subhistory => bound subhistory + 2).sum + history.length + 2

section
variable {model : Model σ ι ο} {history : List (List (Entry ι ο))} {computeInfo : Bool}
  {timeout : Int}
  {p p' : Parallel σ} {costs : List Nat} {i : Nat} {subhistory : List (Entry ι ο)}

/-- What a search reports are partial linearizations. -/
theorem isPartial_of_mem {n : Nat} {l : Longest} (h : LongestOK model subhistory n l)
    (ids : List Nat) (hids : some ids ∈ l) : IsPartial model subhistory ids := by
  obtain ⟨id, hid⟩ := List.getElem?_of_mem hids
  exact (h.isPartial id ids hid).2

theorem sum_set_lt {l : List Nat} {i m k : Nat} (hi : l[i]? = some k) (hlt : m < k) :
    (l.set i m).sum < l.sum := by
  induction l generalizing i with
  | nil => cases hi
  | cons a l ih =>
    cases i with
    | zero =>
      cases hi
      simpa using hlt
    | succ i => simpa using ih hi

/-! ## Goroutines -/

/-- The steps that are left after a goroutine has taken one. -/
theorem Core.worker_set {w' : Worker σ} {cost' : Nat} (hs : Core model history timeout p costs)
    (hsub : history[i]? = some subhistory) (hok : WorkerOK model subhistory w' cost') (j : Nat)
    (sub : List (Entry ι ο)) (w : Worker σ) (cost : Nat) (hsub' : history[j]? = some sub)
    (hw : (p.workers.set i w')[j]? = some w) (hcost : (costs.set i cost')[j]? = some cost) :
    WorkerOK model sub w cost := by
  rw [List.getElem?_set] at hw hcost
  split at hw
  · next heq =>
    subst heq
    rw [hsub] at hsub'
    cases hsub'
    rw [if_pos rfl] at hcost
    split at hw <;> cases hw
    split at hcost <;> cases hcost
    exact hok
  · next hne =>
    rw [if_neg hne] at hcost
    exact hs.worker j sub w cost hsub' hw hcost

/-- A goroutine takes a step, but sends nothing. -/
theorem Sound.setWorker {w w' : Worker σ} {cost' : Nat} (hs : Sound model history timeout p costs)
    (hsub : history[i]? = some subhistory) (hw : p.workers[i]? = some w) (hsent : w.isSent = false)
    (hsent' : w'.isSent = false) (hok : WorkerOK model subhistory w' cost')
    (hret : p.phase = .loop → ∀ ok, w' = .returned ok → (ok = true ↔ Good model history i)) :
    Sound model history timeout { p with workers := p.workers.set i w' } (costs.set i cost') where
  length := by rw [List.length_set, hs.length]
  costs_length := by rw [List.length_set, hs.costs_length]
  worker := hs.worker_set hsub hok
  longest := hs.longest
  count := by
    obtain ⟨hlt, hget⟩ := List.getElem?_eq_some_iff.1 hw
    rw [List.countP_set hlt, hget, hsent, hsent']
    exact hs.count
  verdicts hphase := by
    obtain ⟨hreturned, received, waiting, hmem, hwaiting, hok⟩ := hs.verdicts hphase
    refine ⟨fun j ok hj => ?_, received, waiting, fun j => ?_, hwaiting, hok⟩
    · rw [List.getElem?_set] at hj
      split at hj
      · next heq =>
        subst heq
        split at hj <;> cases hj
        exact hret hphase ok rfl
      · exact hreturned j ok hj
    · rw [hmem, List.getElem?_set]
      split
      · next heq =>
        subst heq
        rw [hw, if_pos (List.getElem?_eq_some_iff.1 hw).1]
        refine iff_of_false ?_ ?_ <;> rintro ⟨⟩
        · cases hsent
        · cases hsent'
      · rfl
  timedOut := hs.timedOut
  illegal := hs.illegal
  phase := hs.phase

/-- The partial linearizations of a partition are stored. -/
theorem Sound.setLongest {l : Longest} (hs : Sound model history timeout p costs)
    (hsub : history[i]? = some subhistory)
    (hl : ∀ ids, some ids ∈ l → IsPartial model subhistory ids) :
    Sound model history timeout { p with longest := p.longest.set i l } costs where
  length := hs.length
  costs_length := hs.costs_length
  worker := hs.worker
  longest j sub l' hsub' hl' := by
    rw [List.getElem?_set] at hl'
    split at hl'
    · next heq =>
      subst heq
      rw [hsub] at hsub'
      cases hsub'
      split at hl' <;> cases hl'
      exact hl
    · exact hs.longest j sub l' hsub' hl'
  count := hs.count
  verdicts hphase := ⟨(hs.verdicts hphase).returned, (hs.verdicts hphase).arrived⟩
  timedOut := hs.timedOut
  illegal := hs.illegal
  phase := hs.phase

/-- A search goes on, or returns. -/
theorem work_cases (h : p.work model history computeInfo i = some p') :
    ∃ subhistory c, history[i]? = some subhistory ∧ p.workers[i]? = some (.running c) ∧
      ((∃ c', c.iterate model (nodesOf subhistory) computeInfo subhistory.length p.kill =
        some (.running c') ∧
        p' = { p with workers := p.workers.set i (.running c') }) ∨
      ∃ ok l, c.iterate model (nodesOf subhistory) computeInfo subhistory.length p.kill =
        some (.returned ok l) ∧
        p' = { p with
          workers := p.workers.set i (.returned ok)
          longest := p.longest.set i l }) := by
  rw [Parallel.work] at h
  obtain ⟨subhistory, hsub, h⟩ := Option.bind_eq_some_iff.1 h
  obtain ⟨w, hw, h⟩ := Option.bind_eq_some_iff.1 h
  cases w with
  | running c =>
    obtain ⟨outcome, hiter, h⟩ := Option.bind_eq_some_iff.1 h
    refine ⟨subhistory, c, hsub, hw, ?_⟩
    cases outcome with
    | running c' =>
      cases h
      exact .inl ⟨c', hiter, rfl⟩
    | returned ok l =>
      cases h
      exact .inr ⟨ok, l, hiter, rfl⟩
  | returned ok => cases h
  | sent => cases h

/-- The rank of a search is below the bound of its partition. -/
theorem rank_lt_bound (h : WellFormed subhistory (subhistory.length / 2)) {c : Search σ} {r : Nat}
    (hc : InOrder model subhistory (subhistory.length / 2) r c) : r < bound subhistory := by
  have hlt := hc.lt h
  rwa [← h.length] at hlt

/-- In the loop no search is killed. -/
theorem Sound.kill_eq (hs : Sound model history timeout p costs) (hphase : p.phase = .loop) :
    p.kill = false := by
  have hloop := hs.phase
  rw [PhaseOK, hphase] at hloop
  exact hloop.1

theorem Sound.exists_cost (hs : Sound model history timeout p costs)
    (hsub : history[i]? = some subhistory) :
    ∃ cost, costs[i]? = some cost := by
  have hlt := (List.getElem?_eq_some_iff.1 hsub).1
  rw [← hs.costs_length] at hlt
  exact ⟨_, List.getElem?_eq_getElem hlt⟩

section
variable (h : ∀ subhistory ∈ history, WellFormed subhistory (subhistory.length / 2))
  (hequal : model.EqualOk)
include h

include hequal in
/-- A search goes on, or returns with a result that is right if it was not killed. -/
theorem Sound.iterate {c : Search σ} {cost : Nat} (hs : Sound model history timeout p costs)
    (hsub : history[i]? = some subhistory) (hw : p.workers[i]? = some (.running c))
    (hcost : costs[i]? = some cost) :
    (∃ c' cost', c.iterate model (nodesOf subhistory) computeInfo subhistory.length p.kill =
      some (.running c') ∧
      WorkerOK model subhistory (.running c') cost' ∧ cost' < cost) ∨
    ∃ ok l, c.iterate model (nodesOf subhistory) computeInfo subhistory.length p.kill =
      some (.returned ok l) ∧
      1 < cost ∧ (p.kill = false → (ok = true ↔ Good model history i)) ∧
      ∀ ids, some ids ∈ l → IsPartial model subhistory ids := by
  have hwf := h subhistory (List.mem_of_getElem? hsub)
  cases hs.worker i _ _ _ hsub hw hcost with
  | @running _ r hc =>
    have hlt := rank_lt_bound hwf hc
    cases hkill : p.kill with
    | true =>
      obtain ⟨ok, l, hiter, hl⟩ := hc.iterate_killed hwf computeInfo
      exact .inr ⟨ok, l, hiter, by omega, fun h => (by cases h), isPartial_of_mem hl⟩
    | false =>
      rcases hc.iterate hwf hequal computeInfo with ⟨c', r', hiter, hc', hr⟩ | ⟨ok, l, hiter, hok⟩
      · exact .inl ⟨c', _, hiter, .running hc', by omega⟩
      · refine .inr ⟨ok, l, hiter, by omega, fun _ => ?_, isPartial_of_mem hok.longest⟩
        rw [hok.iff, Good]
        constructor
        · intro hgood sub hsub'
          rw [hsub] at hsub'
          cases hsub'
          exact hgood
        · exact fun hgood => hgood subhistory hsub

include hequal in
/-- An iteration of a search. -/
theorem Sound.work (hs : Sound model history timeout p costs)
    (hstep : p.work model history computeInfo i = some p') :
    ∃ costs', Sound model history timeout p' costs' ∧
      total history p' costs' < total history p costs := by
  obtain ⟨sub, c, hsub, hw, hcases⟩ := work_cases hstep
  obtain ⟨cost, hcost⟩ := hs.exists_cost hsub
  have hless : ∀ cost' < cost,
    (costs.set i cost').sum + (history.length - p.count) + p.phase.cost <
      total history p costs := fun cost' hlt =>
    Nat.add_lt_add_right (Nat.add_lt_add_right (sum_set_lt hcost hlt) _) _
  rcases hs.iterate h hequal hsub hw hcost with
    ⟨c', cost', hiter, hok, hlt⟩ | ⟨ok, l, hiter, hlt, hright, hl⟩
  · rw [hiter] at hcases
    rcases hcases with ⟨c'', heq, rfl⟩ | ⟨ok, l, heq, -⟩ <;> cases heq
    refine ⟨_, hs.setWorker hsub hw rfl rfl hok fun _ ok hret => ?_, hless cost' hlt⟩
    cases hret
  · rw [hiter] at hcases
    rcases hcases with ⟨c'', heq, -⟩ | ⟨ok', l', heq, rfl⟩ <;> cases heq
    refine ⟨_, (hs.setWorker hsub hw rfl rfl (.returned ok) fun hphase ok' hret =>
      ?_).setLongest hsub hl, hless 1 hlt⟩
    cases hret
    exact hright (hs.kill_eq hphase)

end

/-- What it takes to send a result. -/
theorem send_cases (h : p.send history i = some p') :
    ∃ ok, p.workers[i]? = some (.returned ok) ∧
      p' = { p with workers := p.workers.set i .sent, results := p.results ++ [ok] } := by
  rw [send] at h
  obtain ⟨w, hw, h⟩ := Option.bind_eq_some_iff.1 h
  cases w with
  | running c => cases h
  | returned ok =>
    dsimp only at h
    split at h <;> cases h
    exact ⟨ok, hw, rfl⟩
  | sent => cases h

theorem Sound.exists_subhistory {w : Worker σ} (hs : Sound model history timeout p costs)
    (hw : p.workers[i]? = some w) : ∃ subhistory, history[i]? = some subhistory := by
  have hlt := (List.getElem?_eq_some_iff.1 hw).1
  rw [hs.length] at hlt
  exact ⟨_, List.getElem?_eq_getElem hlt⟩

/-- A goroutine sends its result. -/
theorem Sound.send (hs : Sound model history timeout p costs)
    (hstep : p.send history i = some p') :
    ∃ costs', Sound model history timeout p' costs' ∧
      total history p' costs' < total history p costs := by
  obtain ⟨ok, hw, rfl⟩ := send_cases hstep
  obtain ⟨subhistory, hsub⟩ := hs.exists_subhistory hw
  obtain ⟨cost, hcost⟩ := hs.exists_cost hsub
  have hlt : 0 < cost := by
    cases hs.worker i _ _ _ hsub hw hcost
    exact Nat.one_pos
  refine ⟨costs.set i 0,
    ⟨⟨?_, ?_, hs.worker_set hsub .sent, hs.longest, ?_, fun hphase => ?_, hs.timedOut,
    hs.illegal⟩, hs.phase⟩, Nat.add_lt_add_right (Nat.add_lt_add_right (sum_set_lt hcost hlt) _) _⟩
  · rw [List.length_set, hs.length]
  · rw [List.length_set, hs.costs_length]
  · obtain ⟨hi, hget⟩ := List.getElem?_eq_some_iff.1 hw
    have hcount := hs.count
    rw [List.countP_set hi, hget, List.length_append]
    simp only [Worker.isSent, Bool.false_eq_true, if_false, if_true, List.length_singleton]
    omega
  · obtain ⟨hreturned, received, waiting, hmem, hwaiting, hok⟩ := hs.verdicts hphase
    refine ⟨fun j ok' hj => ?_, received, waiting ++ [i], fun j => ?_, ?_, hok⟩
    · rw [List.getElem?_set] at hj
      split at hj
      · split at hj <;> cases hj
      · exact hreturned j ok' hj
    · rw [← List.append_assoc, List.mem_append, hmem, List.mem_singleton, List.getElem?_set]
      split
      · next heq =>
        rw [if_pos (List.getElem?_eq_some_iff.1 hw).1]
        exact iff_of_true (.inr heq.symm) rfl
      · next hne => exact or_iff_left (Ne.symm hne)
    · exact List.rel_append hwaiting (.cons (hreturned i ok hw) .nil)

/-! ## Results -/

/-- All results have been received. -/
theorem Core.all_good (hs : Core model history timeout p costs) (hphase : p.phase = .loop)
    (hcount : history.length ≤ p.count) (hok : p.ok = true) :
    ∀ i < history.length, Good model history i := by
  obtain ⟨-, received, waiting, hmem, hwaiting, hiff⟩ := hs.verdicts hphase
  have hle : p.workers.countP Worker.isSent ≤ p.workers.length := List.countP_le_length
  have hsum := hs.count
  have hnil : p.results = [] :=
    List.eq_nil_of_length_eq_zero (by rw [← hs.length] at hcount; omega)
  have hall := List.countP_eq_length.1 (show p.workers.countP Worker.isSent = p.workers.length by
    rw [← hs.length] at hcount
    omega)
  rw [hnil] at hwaiting
  obtain rfl := List.forall₂_nil_right_iff.1 hwaiting
  intro i hi
  rw [← hs.length] at hi
  refine hiff.1 hok i ?_
  rw [← List.append_nil received, hmem, List.getElem?_eq_getElem hi]
  have hsent := hall _ (List.getElem_mem hi)
  cases hw : p.workers[i] with
  | running c => rw [hw] at hsent; cases hsent
  | returned ok => rw [hw] at hsent; cases hsent
  | sent => rfl

theorem result_eq_ok : p.result = .ok ↔ p.ok = true ∧ p.timedOut = false := by
  cases hok : p.ok <;> cases htimedOut : p.timedOut <;> simp [result, hok, htimedOut]

theorem result_eq_illegal : p.result = .illegal ↔ p.ok = false := by
  cases hok : p.ok <;> cases htimedOut : p.timedOut <;> simp [result, hok, htimedOut]

theorem result_eq_unknown : p.result = .unknown ↔ p.ok = true ∧ p.timedOut = true := by
  cases hok : p.ok <;> cases htimedOut : p.timedOut <;> simp [result, hok, htimedOut]

/-- What is reported is what is in the slice. -/
theorem mem_partials {longest : Longest} {ids : List Nat} :
    ids ∈ partials longest ↔ some ids ∈ longest := by
  rw [partials, List.mem_dedup, List.reduceOption_mem_iff]

/-- A result is received and counts. -/
theorem Core.receive {result : Bool} {results : List Bool}
    (hs : Core model history timeout p costs)
    (hphase : p.phase = .loop) (hresults : p.results = result :: results) :
    Core model history timeout { p with results, count := p.count + 1, ok := p.ok && result }
      costs := by
  obtain ⟨hreturned, received, waiting, hmem, hwaiting, hok⟩ := hs.verdicts hphase
  rw [hresults] at hwaiting
  obtain ⟨i, waiting', hi, hwaiting', rfl⟩ := List.forall₂_cons_right_iff.1 hwaiting
  have hok' : (p.ok && result) = true ↔ ∀ j ∈ received ++ [i], Good model history j := by
    rw [Bool.and_eq_true, hok, hi, List.forall_mem_append, List.forall_mem_singleton]
  refine ⟨hs.length, hs.costs_length, hs.worker, hs.longest, ?_, fun _ =>
    ⟨hreturned, received ++ [i], waiting',
    fun j => ?_, hwaiting', hok'⟩, hs.timedOut, fun hfalse => ?_⟩
  · have hcount := hs.count
    rw [hresults, List.length_cons] at hcount
    dsimp only
    omega
  · rw [List.append_assoc]
    exact hmem j
  · by_contra hnone
    push Not at hnone
    refine Bool.false_ne_true (hfalse.symm.trans (hok'.2 fun j hj => hnone j ?_))
    have hsent := (hmem j).1 (by rw [List.append_cons]; exact List.mem_append_left _ hj)
    rw [← hs.length]
    exact (List.getElem?_eq_some_iff.1 hsent).1

/-- Behind the loop nothing is said about the results that have not been received. -/
theorem Core.leave {kill : Bool} {phase : Phase} (hs : Core model history timeout p costs)
    (hphase : phase ≠ .loop) : Core model history timeout { p with kill, phase } costs where
  length := hs.length
  costs_length := hs.costs_length
  worker := hs.worker
  longest := hs.longest
  count := hs.count
  verdicts hloop := absurd hloop hphase
  timedOut := hs.timedOut
  illegal := hs.illegal

/-- What it takes to receive a result. -/
theorem receive_cases (h : p.receive history computeInfo = some p') :
    ∃ result results p₁, p.phase = .loop ∧ p.results = result :: results ∧
      p₁ = { p with results, count := p.count + 1, ok := p.ok && result } ∧
      ((p₁.ok = false ∧ p' = { p₁ with kill := true, phase := .afterLoop }) ∨
        (history.length ≤ p₁.count ∧ p' = { p₁ with phase := .afterLoop }) ∨
        (p₁.count < history.length ∧ p' = p₁)) := by
  rw [receive] at h
  split at h
  · next result results hphase hresults =>
    refine ⟨result, results, _, hphase, hresults, rfl, ?_⟩
    dsimp only at h
    split at h
    · next hcond =>
      cases h
      simp only [Bool.and_eq_true, Bool.not_eq_true'] at hcond
      exact .inl ⟨hcond.1, rfl⟩
    · split at h <;> cases h
      · next hle => exact .inr (.inl ⟨hle, rfl⟩)
      · next hlt => exact .inr (.inr ⟨Nat.not_le.1 hlt, rfl⟩)
  · cases h

/-- The loop receives a result. -/
theorem Sound.receive (hs : Sound model history timeout p costs)
    (hstep : p.receive history computeInfo = some p') :
    Sound model history timeout p' costs ∧ total history p' costs < total history p costs := by
  obtain ⟨result, results, p₁, hphase, hresults, hp₁, hcases⟩ := receive_cases hstep
  have hloop := hs.phase
  rw [PhaseOK, hphase] at hloop
  obtain ⟨hkill, htimedOut, -⟩ := hloop
  have hcore := hs.toCore.receive hphase hresults
  have hlt : p.count < history.length := by
    have hcount := hs.count
    have hle : p.workers.countP Worker.isSent ≤ p.workers.length := List.countP_le_length
    rw [hs.length] at hle
    rw [hresults, List.length_cons] at hcount
    omega
  have hless : history.length - (p.count + 1) < history.length - p.count := by omega
  rw [← hp₁] at hcore
  rcases hcases with ⟨hok, rfl⟩ | ⟨hle, rfl⟩ | ⟨hlt', rfl⟩
  · refine ⟨⟨hcore.leave Phase.noConfusion, fun hok' => ?_⟩, ?_⟩
    · exact absurd (hok.symm.trans hok') Bool.false_ne_true
    · simp only [total, hp₁, hphase, Phase.cost]
      omega
  · refine ⟨⟨hcore.leave Phase.noConfusion, fun hok _ => ?_⟩, ?_⟩
    · exact hcore.all_good (by rw [hp₁]; exact hphase) hle hok
    · simp only [total, hp₁, hphase, Phase.cost]
      omega
  · refine ⟨⟨hcore, ?_⟩, ?_⟩
    · rw [PhaseOK, hp₁, hphase]
      rw [hp₁] at hlt'
      exact ⟨hkill, htimedOut, .inl hlt'⟩
    · simp only [total, hp₁, hphase, Phase.cost]
      omega

theorem Sound.expire (hs : Sound model history timeout p costs)
    (hstep : p.expire timeout = some p') :
    Sound model history timeout p' costs ∧ total history p' costs < total history p costs := by
  rw [Parallel.expire] at hstep
  split at hstep
  · next hphase =>
    split at hstep <;> cases hstep
    next htimeout =>
    refine ⟨⟨⟨hs.length, hs.costs_length, hs.worker, hs.longest, hs.count,
      (fun hloop => by cases hloop), fun _ => htimeout, hs.illegal⟩, fun _ hnot => ?_⟩, ?_⟩
    · cases hnot
    · simp only [total, hphase, Phase.cost]
      omega
  · cases hstep

/-- A result is received behind the loop. -/
theorem Sound.drain (hs : Sound model history timeout p costs)
    (hstep : p.drain history computeInfo = some p') :
    Sound model history timeout p' costs ∧ total history p' costs < total history p costs := by
  rw [Parallel.drain] at hstep
  split at hstep
  · next hphase hresults =>
    split at hstep <;> cases hstep
    next hcond =>
    have hcount := hs.count
    have hloop : p.phase ≠ .loop := by
      rw [hphase]
      exact Phase.noConfusion
    rw [hresults, List.length_cons] at hcount
    refine ⟨⟨⟨hs.length, hs.costs_length, hs.worker, hs.longest, ?_, fun h => absurd h hloop,
      hs.timedOut, hs.illegal⟩, ?_⟩, ?_⟩
    · dsimp only
      omega
    · have hafter := hs.phase
      rw [PhaseOK, hphase] at hafter ⊢
      exact hafter
    · simp only [total]
      omega
  · cases hstep

/-- What is returned is right. -/
theorem Sound.finish (hs : Sound model history timeout p costs)
    (hstep : p.finish history computeInfo = some p') :
    Sound model history timeout p' costs ∧ total history p' costs < total history p costs := by
  rw [Parallel.finish] at hstep
  split at hstep
  · next hphase =>
    split at hstep <;> cases hstep
    have hafter := hs.phase
    rw [PhaseOK, hphase] at hafter
    refine ⟨⟨hs.toCore.leave Phase.noConfusion, ?_⟩, ?_⟩
    · refine ⟨fun hresult => ?_, fun hresult => ?_, fun hresult => ?_,
        fun i sub l hsub hl ids hids => ?_⟩
      · obtain ⟨hok, htimedOut⟩ := result_eq_ok.1 hresult
        exact hafter hok htimedOut
      · exact hs.illegal (result_eq_illegal.1 hresult)
      · exact hs.timedOut (result_eq_unknown.1 hresult).2
      · split at hl
        · rw [List.getElem?_map] at hl
          obtain ⟨longest, hlongest, rfl⟩ := Option.map_eq_some_iff.1 hl
          exact hs.longest i sub longest hsub hlongest ids (mem_partials.1 hids)
        · cases hl
    · simp only [total, hphase, Phase.cost]
      omega
  · cases hstep

/-! ## Runs -/

section
variable (h : ∀ subhistory ∈ history, WellFormed subhistory (subhistory.length / 2))
  (hequal : model.EqualOk)
include h

include hequal in
/-- Every step keeps the invariant and costs something. -/
theorem Sound.step (hs : Sound model history timeout p costs) {e : ParallelEvent}
    (hstep : p.step model history computeInfo timeout e = some p') :
    ∃ costs', Sound model history timeout p' costs' ∧
      total history p' costs' < total history p costs := by
  cases e with
  | work i => exact hs.work h hequal hstep
  | send i => exact hs.send hstep
  | receive => exact ⟨costs, hs.receive hstep⟩
  | timeout => exact ⟨costs, hs.expire hstep⟩
  | drain => exact ⟨costs, hs.drain hstep⟩
  | finish => exact ⟨costs, hs.finish hstep⟩

include hequal in
/-- With every event fewer are left. -/
theorem Sound.run {es : List ParallelEvent} (hs : Sound model history timeout p costs)
    (hrun : runAll (Parallel.step model history computeInfo timeout) p es = some p') :
    ∃ costs', Sound model history timeout p' costs' ∧
      es.length + total history p' costs' ≤ total history p costs := by
  induction es generalizing p costs with
  | nil =>
    cases hrun
    exact ⟨costs, hs, by simp⟩
  | cons e es ih =>
    obtain ⟨p₁, hstep, hrun⟩ := Option.bind_eq_some_iff.1 hrun
    obtain ⟨costs₁, hs₁, hlt⟩ := hs.step h hequal hstep
    obtain ⟨costs', hs', hle⟩ := ih hs₁ hrun
    refine ⟨costs', hs', ?_⟩
    rw [List.length_cons]
    omega

/-- The goroutines start in order. -/
theorem sound_start : ∃ costs, Sound model history timeout (start model history) costs ∧
    total history (start model history) costs ≤ maxSteps history := by
  have hcost : ∀ subhistory ∈ history, ∃ cost ≤ bound subhistory + 2,
      WorkerOK model subhistory (.running (Search.start model subhistory)) cost := by
    intro subhistory hsub
    obtain ⟨r, hr⟩ := inOrder_start (h subhistory hsub)
    exact ⟨_, Nat.sub_le .., .running hr⟩
  choose! cost hle hok using hcost
  have hnone : ∀ (i : Nat) w, (start model history).workers[i]? = some w →
      ∃ sub, history[i]? = some sub ∧ w = .running (Search.start model sub) := by
    intro i w hw
    rw [start, List.getElem?_map] at hw
    obtain ⟨sub, hsub, rfl⟩ := Option.map_eq_some_iff.1 hw
    exact ⟨sub, hsub, rfl⟩
  refine ⟨history.map cost, ⟨⟨List.length_map .., List.length_map .., ?_, ?_, ?_,
    fun _ => ⟨?_, [], [], ?_, .nil, ?_⟩, (fun h => by cases h), fun h => by cases h⟩,
    rfl, rfl, ?_⟩, ?_⟩
  · intro i sub w cost' hsub hw hcost
    obtain ⟨sub', hsub', rfl⟩ := hnone i w hw
    rw [hsub] at hsub'
    cases hsub'
    rw [List.getElem?_map, hsub] at hcost
    cases hcost
    exact hok sub (List.mem_of_getElem? hsub)
  · intro i sub l hsub hl ids hids
    rw [start, List.getElem?_map, hsub] at hl
    cases hl
    cases hids
  · refine (List.countP_eq_zero.2 fun w hw => ?_).symm
    obtain ⟨i, hi⟩ := List.getElem?_of_mem hw
    obtain ⟨sub, -, rfl⟩ := hnone i w hi
    exact Bool.false_ne_true
  · intro i ok hw
    obtain ⟨sub, -, heq⟩ := hnone i _ hw
    cases heq
  · refine fun i => iff_of_false List.not_mem_nil fun hw => ?_
    obtain ⟨sub, -, heq⟩ := hnone i _ hw
    cases heq
  · exact iff_of_true rfl fun i hi => absurd hi List.not_mem_nil
  · cases history with
    | nil => exact .inr rfl
    | cons sub history => exact .inl (Nat.succ_pos _)
  · have hsum := List.sum_le_sum hle
    simp only [total, maxSteps, start, Phase.cost]
    omega

include hequal in
/-- A search never fails. -/
theorem Sound.isSome_work (hs : Sound model history timeout p costs) {c : Search σ}
    (hw : p.workers[i]? = some (.running c)) : (p.work model history computeInfo i).isSome := by
  obtain ⟨sub, hsub⟩ := hs.exists_subhistory hw
  obtain ⟨cost, hcost⟩ := hs.exists_cost hsub
  simp only [Parallel.work, hsub, hw, Option.bind_eq_bind, Option.bind_some]
  rcases hs.iterate h hequal hsub hw hcost with ⟨c', cost', hiter, -⟩ | ⟨ok, l, hiter, -⟩
  · rw [nodesOf] at hiter
    rw [hiter]
    rfl
  · rw [nodesOf] at hiter
    rw [hiter]
    rfl

omit h in
/-- There is room for every result. -/
theorem Sound.isSome_send (hs : Sound model history timeout p costs) {ok : Bool}
    (hw : p.workers[i]? = some (.returned ok)) : (p.send history i).isSome := by
  have hlt : p.results.length < history.length := by
    have hcount := hs.count
    have hle : p.workers.countP Worker.isSent < p.workers.length := by
      refine Nat.lt_of_le_of_ne List.countP_le_length fun heq => ?_
      exact Bool.false_ne_true (List.countP_eq_length.1 heq _ (List.mem_of_getElem? hw))
    rw [hs.length] at hle
    omega
  simp only [Parallel.send, hw, Option.bind_eq_bind, Option.bind_some, if_pos hlt]
  rfl

omit h in
/-- When all results have been sent, `checkParallel` can go on until it returns. -/
theorem Sound.progress_main (hne : history ≠ [] ∨ 0 < timeout)
    (hs : Sound model history timeout p costs)
    (hall : ∀ w ∈ p.workers, w.isSent = true) : (∃ result info, p.phase = .returned result info) ∨
      ∃ e, (p.step model history computeInfo timeout e).isSome := by
  have hcount := hs.count
  rw [List.countP_eq_length.2 hall, hs.length] at hcount
  have hphaseOK := hs.phase
  cases hphase : p.phase with
  | loop =>
    rw [PhaseOK, hphase] at hphaseOK
    cases hresults : p.results with
    | nil =>
      -- nothing is left to be received, so there are no partitions
      rw [hresults, List.length_nil] at hcount
      have hnil := hphaseOK.2.2.resolve_left (by omega)
      refine .inr ⟨.timeout, ?_⟩
      simp only [Parallel.step, Parallel.expire, hphase, if_pos (hne.resolve_left (absurd hnil))]
      rfl
    | cons result results =>
      refine .inr ⟨.receive, ?_⟩
      simp only [Parallel.step, Parallel.receive, hphase, hresults]
      split
      · rfl
      · split <;> rfl
  | afterLoop =>
    by_cases hcond : computeInfo ∧ p.count < history.length
    · cases hresults : p.results with
      | nil =>
        rw [hresults, List.length_nil] at hcount
        omega
      | cons result results =>
        refine .inr ⟨.drain, ?_⟩
        simp only [Parallel.step, Parallel.drain, hphase, hresults, if_pos hcond]
        rfl
    · refine .inr ⟨.finish, ?_⟩
      simp only [Parallel.step, Parallel.finish, hphase, if_neg hcond]
      rfl
  | returned result info => exact .inl ⟨result, info, rfl⟩

include hequal in
/-- `checkParallel` can go on until it returns. -/
theorem Sound.progress (hne : history ≠ [] ∨ 0 < timeout)
    (hs : Sound model history timeout p costs) :
    (∃ result info, p.phase = .returned result info) ∨
      ∃ e, (p.step model history computeInfo timeout e).isSome := by
  by_cases hall : ∀ w ∈ p.workers, w.isSent = true
  · exact hs.progress_main hne hall
  · push Not at hall
    obtain ⟨w, hw, hsent⟩ := hall
    obtain ⟨i, hi⟩ := List.getElem?_of_mem hw
    cases w with
    | running c => exact .inr ⟨.work i, hs.isSome_work h hequal hi⟩
    | returned ok => exact .inr ⟨.send i, hs.isSome_send hi⟩
    | sent => exact absurd rfl hsent

include hequal in
/-- `checkParallel` can come to its end from everywhere. -/
theorem Sound.exists_return (hne : history ≠ [] ∨ 0 < timeout)
    (hs : Sound model history timeout p costs) :
    ∃ es p' result info, runAll (Parallel.step model history computeInfo timeout) p es = some p' ∧
      p'.phase = .returned result info := by
  induction hn : total history p costs using Nat.strongRecOn generalizing p costs with
  | ind n ih =>
    rcases hs.progress h hequal hne with ⟨result, info, hphase⟩ | ⟨e, he⟩
    · exact ⟨[], p, result, info, rfl, hphase⟩
    · obtain ⟨p₁, hstep⟩ := Option.isSome_iff_exists.1 he
      obtain ⟨costs₁, hs₁, hlt⟩ := hs.step h hequal hstep
      obtain ⟨es, p', result, info, hrun, hphase⟩ := ih _ (hn ▸ hlt) hs₁ rfl
      refine ⟨e :: es, p', result, info, ?_, hphase⟩
      rw [runAll, hstep]
      exact hrun

end

/-- Without partitions and without a timeout nothing ever happens. -/
theorem step_nil (htimeout : ¬ 0 < timeout) (e : ParallelEvent) :
    (start model []).step model [] computeInfo timeout e = none := by
  cases e with
  | work i | send i | receive | drain | finish => rfl
  | timeout => exact if_neg htimeout

end

end Parallel

/-! ## Histories of operations -/

/-- What `checkParallel` returns for the partitions of a history is right. -/
structure VerdictOK (model : Model σ ι ο) (partitions : List (List (Operation ι ο)))
    (timeout : Int) (result : CheckResult) (info : List (List (List Nat))) : Prop where
  ok : result = .ok → ∀ subhistory ∈ partitions, model.Linearizable subhistory
  illegal : result = .illegal → ∃ subhistory ∈ partitions, ¬ model.Linearizable subhistory
  unknown : result = .unknown → 0 < timeout
  info : ∀ (i : Nat) subhistory l, partitions[i]? = some subhistory → info[i]? = some l →
    ∀ ids ∈ l, model.Begins subhistory ids

section
variable {model : Model σ ι ο} {partitions : List (List (Operation ι ο))} {s : EntrySort ι ο}
  {computeInfo : Bool} {timeout : Int}

/-- The entries of all partitions are well formed. -/
theorem wellFormed_partitions
    (htimes : ∀ subhistory ∈ partitions, ∀ op ∈ subhistory, op.call ≤ op.ret) :
    ∀ entries ∈ partitions.map (makeEntries s), WellFormed entries (entries.length / 2) := by
  intro entries hmem
  obtain ⟨subhistory, hsub, rfl⟩ := List.mem_map.1 hmem
  have h : WellFormed (makeEntries s subhistory) subhistory.length :=
    wellFormed_makeEntries (htimes subhistory hsub)
  rw [h.length, Nat.mul_div_cancel_left _ Nat.two_pos]
  exact h

/-- A partition is good exactly if it is linearizable. -/
theorem good_iff
    (htimes : ∀ subhistory ∈ partitions, ∀ op ∈ subhistory, op.call ≤ op.ret) {i : Nat}
    {subhistory : List (Operation ι ο)} (hsub : partitions[i]? = some subhistory) :
    Parallel.Good model (partitions.map (makeEntries s)) i ↔ model.Linearizable subhistory := by
  have h : WellFormed (makeEntries s subhistory) subhistory.length :=
    wellFormed_makeEntries (htimes subhistory (List.mem_of_getElem? hsub))
  rw [Parallel.Good, List.getElem?_map, hsub, ← completes_iff h, ← h.length]
  simp only [Option.map_some, Option.some.injEq, forall_eq']

/-- What is right for the entries is right for the operations. -/
theorem Parallel.ReturnsOK.verdictOK
    (htimes : ∀ subhistory ∈ partitions, ∀ op ∈ subhistory, op.call ≤ op.ret)
    {result : CheckResult} {info : List (List (List Nat))}
    (h : ReturnsOK model (partitions.map (makeEntries s)) timeout result info) :
    VerdictOK model partitions timeout result info where
  ok hresult subhistory hsub := by
    obtain ⟨i, hi⟩ := List.getElem?_of_mem hsub
    refine (good_iff htimes hi).1 (h.ok hresult i ?_)
    rw [List.length_map]
    exact (List.getElem?_eq_some_iff.1 hi).1
  illegal hresult := by
    obtain ⟨i, hlt, hbad⟩ := h.illegal hresult
    rw [List.length_map] at hlt
    exact ⟨partitions[i], List.getElem_mem hlt, fun hlin =>
      hbad ((good_iff htimes (List.getElem?_eq_getElem hlt)).2 hlin)⟩
  unknown := h.unknown
  info i subhistory l hsub hl ids hids := by
    have hwf : WellFormed (makeEntries s subhistory) subhistory.length :=
      wellFormed_makeEntries (htimes subhistory (List.mem_of_getElem? hsub))
    refine begins_of_isPartial hwf (h.info i _ l ?_ hl ids hids)
    rw [List.getElem?_map, hsub]
    rfl

/-- What holds in all runs of `checkParallel`. -/
theorem exists_sound (htimes : ∀ subhistory ∈ partitions, ∀ op ∈ subhistory, op.call ≤ op.ret)
    (hequal : model.EqualOk) {es : List ParallelEvent} {p : Parallel σ}
    (hrun : runAll (Parallel.step model (partitions.map (makeEntries s)) computeInfo timeout)
      (.start model (partitions.map (makeEntries s))) es = some p) :
    ∃ costs, Parallel.Sound model (partitions.map (makeEntries s)) timeout p costs ∧
      es.length ≤ Parallel.maxSteps (partitions.map (makeEntries s)) := by
  have h := wellFormed_partitions (s := s) htimes
  obtain ⟨costs₀, hstart, hle₀⟩ : ∃ costs,
      Parallel.Sound model _ timeout (.start model _) costs ∧ _ :=
    Parallel.sound_start h
  obtain ⟨costs, hs, hle⟩ := hstart.run h hequal hrun
  exact ⟨costs, hs, by omega⟩

/-- What is returned is right. -/
theorem Parallel.Sound.verdictOK
    (htimes : ∀ subhistory ∈ partitions, ∀ op ∈ subhistory, op.call ≤ op.ret)
    {p : Parallel σ} {costs : List Nat}
    (hs : Sound model (partitions.map (makeEntries s)) timeout p costs)
    {result : CheckResult} {info : List (List (List Nat))}
    (hphase : p.phase = .returned result info) :
    VerdictOK model partitions timeout result info := by
  have hreturns := hs.phase
  rw [PhaseOK, hphase] at hreturns
  exact hreturns.verdictOK htimes

/-- In every run `checkParallel` comes to an end, and what it returns is right; no search fails. -/
theorem checkParallel_right
    (htimes : ∀ subhistory ∈ partitions, ∀ op ∈ subhistory, op.call ≤ op.ret)
    (hequal : model.EqualOk) (hne : partitions ≠ [] ∨ 0 < timeout) {es : List ParallelEvent}
    {p : Parallel σ}
    (hrun : runAll (Parallel.step model (partitions.map (makeEntries s)) computeInfo timeout)
      (.start model (partitions.map (makeEntries s))) es = some p) :
    es.length ≤ Parallel.maxSteps (partitions.map (makeEntries s)) ∧
      ((∃ result info, p.phase = .returned result info) ∨
        ∃ e, (p.step model (partitions.map (makeEntries s)) computeInfo timeout e).isSome) ∧
      (∀ (i : Nat) c, p.workers[i]? = some (.running c) →
        (p.step model (partitions.map (makeEntries s)) computeInfo timeout (.work i)).isSome) ∧
      ∀ result info, p.phase = .returned result info →
        VerdictOK model partitions timeout result info := by
  have h := wellFormed_partitions (s := s) htimes
  obtain ⟨costs, hs, hle⟩ := exists_sound htimes hequal hrun
  exact ⟨hle, hs.progress h hequal (by simpa using hne), fun i c hw => hs.isSome_work h hequal hw,
    fun result info hphase => hs.verdictOK htimes hphase⟩

end

/-- A search, up to the return of `checkParallel`. -/
def searchAndReturn : List ParallelEvent := [.work 0, .work 0, .work 0, .send 0, .receive, .finish]

/-- `checkParallel` has returned `Ok`. -/
def Parallel.returnedOk (p : Parallel σ) : Bool :=
  match p.phase with
  | .returned .ok _ => true
  | _ => false

theorem Parallel.exists_info {p : Parallel σ} (h : p.returnedOk = true) :
    ∃ info, p.phase = .returned .ok info := by
  rw [returnedOk] at h
  split at h
  · next info hphase => exact ⟨info, hphase⟩
  · cases h

/-- A run with one partition that returns `Ok`. -/
theorem checkParallel_right_searchAndReturn :
    ∃ p info, runAll (Parallel.step KvModel [makeEntries byTime writeWhileRead] true 0)
        (.start KvModel [makeEntries byTime writeWhileRead]) searchAndReturn = some p ∧
      p.phase = .returned .ok info ∧ VerdictOK KvModel [writeWhileRead] 0 .ok info := by
  have hrun : (runAll (Parallel.step KvModel [makeEntries byTime writeWhileRead] true 0)
      (.start KvModel [makeEntries byTime writeWhileRead]) searchAndReturn).any
        Parallel.returnedOk = true := by
    decide +kernel
  obtain ⟨p, hp, hok⟩ := (Option.any_eq_true ..).1 hrun
  obtain ⟨info, hphase⟩ := Parallel.exists_info hok
  have hright :=
    @checkParallel_right _ _ _ KvModel [writeWhileRead] byTime true 0 (by decide) KvModel.equalOk
    (.inl (by simp)) _ _ hp
  exact ⟨p, info, hp, hphase, hright.2.2.2 _ _ hphase⟩

/-! ## Operations -/

/-- `checkOperations` may return a result and partial linearizations: some run of `checkParallel`
with the entries of the partitions does. -/
def checkOperations (s : EntrySort ι ο) (model : Model σ ι ο) (history : List (Operation ι ο))
    (verbose : Bool)
    (timeout : Int) (result : CheckResult) (info : List (List (List Nat))) : Prop :=
  let l := (model.partition history).map (makeEntries s)
  ∃ es p, runAll (Parallel.step model l verbose timeout) (.start model l) es = some p ∧
    p.phase = .returned result info

end DistLabs.Porcupine
