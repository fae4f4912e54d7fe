import DistLabs.Lib.Go
import DistLabs.Lib.Transition
import Mathlib.Data.List.Count
import Mathlib.Logic.Function.Basic

/-!
# The coordinator of `mr/coordinator.go`

`Master` keeps a status for every task and, apart from that, counts reports. `AllocateTask` decides
by the counters. A task that takes longer than ten seconds is allocated again, and if both workers
report it, it is counted twice: reduce tasks are handed out while a map task is missing, and a job
is never done (`reportedTwice`). As long as no task is reported again after it was recorded as
finished (`ReportedOnce`), the counters are right (`Tracks`), and so are the phases
(`phases_gated`).
-/

namespace DistLabs.Mr

open Lib

/-! ## The functions of `coordinator.go` -/

/-- The values of `maptasklog` and `reducetasklog`. -/
inductive TaskStatus where
  | notAllocated
  | waiting
  | finished
  deriving DecidableEq

/-- `Master`. -/
structure Master where
  nReduce : Nat
  nMap : Nat
  files : List GoString
  mapfinished : Nat := 0
  maptasklog : List TaskStatus
  reducefinished : Nat := 0
  reducetasklog : List TaskStatus

/-- `WorkerReply`. The constructors are the values of `Tasktype`, with the fields that go with
them. -/
inductive WorkerReply where
  | map (nReduce mapTaskNumber : Nat) (filename : GoString)
  | reduce (nMap reduceTaskNumber : Nat)
  | waiting
  | jobFinished
  deriving DecidableEq

/-- The loops that look for a task to allocate. -/
def firstNotAllocated (n : Nat) (tasklog : List TaskStatus) : Option Nat :=
  (List.range n).find? fun i => tasklog[i]? = some .notAllocated

namespace Master

/-- `MakeMaster`. -/
def makeMaster (files : List GoString) (nReduce : Nat) : Master where
  files
  nMap := files.length
  nReduce
  maptasklog := List.replicate files.length .notAllocated
  reducetasklog := List.replicate nReduce .notAllocated

variable (m : Master)

/-- `ReceiveFinishedMap`. `none` is a panic: the index is out of range. -/
def receiveFinishedMap (mapTaskNumber : Nat) : Option Master :=
  if mapTaskNumber < m.maptasklog.length then
    some { m with
      mapfinished := m.mapfinished + 1
      maptasklog := m.maptasklog.set mapTaskNumber .finished }
  else none

/-- `ReceiveFinishedReduce`. -/
def receiveFinishedReduce (reduceTaskNumber : Nat) : Option Master :=
  if reduceTaskNumber < m.reducetasklog.length then
    some { m with
      reducefinished := m.reducefinished + 1
      reducetasklog := m.reducetasklog.set reduceTaskNumber .finished }
  else none

/-- `AllocateTask`. The goroutine that it starts is `expireMap` or `expireReduce`. -/
def allocateTask : Option (Master × WorkerReply) :=
  if m.mapfinished < m.nMap then
    match firstNotAllocated m.nMap m.maptasklog with
    | none => some (m, .waiting)
    | some allocate => do
      let filename ← m.files[allocate]?
      return ({ m with maptasklog := m.maptasklog.set allocate .waiting },
        .map m.nReduce allocate filename)
  else if m.mapfinished = m.nMap ∧ m.reducefinished < m.nReduce then
    match firstNotAllocated m.nReduce m.reducetasklog with
    | none => some (m, .waiting)
    | some allocate =>
      some ({ m with reducetasklog := m.reducetasklog.set allocate .waiting },
        .reduce m.nMap allocate)
  else some (m, .jobFinished)

/-- What happens ten seconds after a map task was allocated. -/
def expireMap (allocate : Nat) : Master :=
  if m.maptasklog[allocate]? = some .waiting then
    { m with maptasklog := m.maptasklog.set allocate .notAllocated }
  else m

/-- What happens ten seconds after a reduce task was allocated. -/
def expireReduce (allocate : Nat) : Master :=
  if m.reducetasklog[allocate]? = some .waiting then
    { m with reducetasklog := m.reducetasklog.set allocate .notAllocated }
  else m

/-- `Done`. -/
def done : Bool := m.reducefinished = m.nReduce

end Master

/-! ## Jobs -/

/-- A task that a worker may be given. -/
inductive Task where
  | map (i : Nat)
  | reduce (r : Nat)
  deriving DecidableEq

/-- The task of a reply, if there is one. -/
def WorkerReply.task : WorkerReply → Option Task
  | .map _ i _ => some (.map i)
  | .reduce _ r => some (.reduce r)
  | .waiting | .jobFinished => none

/-- `ReceiveFinishedMap` or `ReceiveFinishedReduce`. -/
def Master.receiveFinished (m : Master) : Task → Option Master
  | .map i => m.receiveFinishedMap i
  | .reduce r => m.receiveFinishedReduce r

/-- The status of a task. -/
def Master.status (m : Master) : Task → Option TaskStatus
  | .map i => m.maptasklog[i]?
  | .reduce r => m.reducetasklog[r]?

/-- The timer of an allocation. -/
def Master.expire (m : Master) : Task → Master
  | .map i => m.expireMap i
  | .reduce r => m.expireReduce r

/-- The coordinator and any number of workers. -/
structure Job where
  master : Master
  /-- What the workers are at. -/
  tasks : Nat → Option Task := fun _ => none
  /-- The goroutines that wait for ten seconds. -/
  timers : List Task := []
  /-- The reports that have arrived so far. -/
  reports : List Task := []

/-- A step of a job. A worker that crashes is replaced by one that starts anew. -/
inductive JobAction where
  | allocate (w : Nat)
  | report (w : Nat)
  | crash (w : Nat)
  | timeout (k : Nat)
  deriving DecidableEq

namespace Job

/-- A job that starts. -/
def init (files : List GoString) (nReduce : Nat) : Job := { master := .makeMaster files nReduce }

/-- A worker without a task calls `AllocateTask`. -/
def allocate (job : Job) (w : Nat) : Option (Job × WorkerReply) :=
  if job.tasks w = none then do
    let (master, reply) ← job.master.allocateTask
    return ({ job with
      master
      tasks := Function.update job.tasks w reply.task
      timers := job.timers ++ reply.task.toList }, reply)
  else none

/-- A worker reports its task. -/
def report (job : Job) (w : Nat) : Option Job := do
  let task ← job.tasks w
  let master ← job.master.receiveFinished task
  return { job with
    master
    tasks := Function.update job.tasks w none
    reports := job.reports ++ [task] }

/-- A worker crashes. -/
def crash (job : Job) (w : Nat) : Job := { job with tasks := Function.update job.tasks w none }

/-- A timer goes off. -/
def timeout (job : Job) (k : Nat) : Option Job := do
  let task ← job.timers[k]?
  return { job with master := job.master.expire task, timers := job.timers.eraseIdx k }

/-- The steps of a job. -/
def step (job : Job) : JobAction → Option Job
  | .allocate w => (job.allocate w).map (·.1)
  | .report w => job.report w
  | .crash w => some (job.crash w)
  | .timeout k => job.timeout k

end Job

/-- What the phases of a job are to be. -/
structure Gated (job : Job) : Prop where
  reduce : ∀ master nMap r, job.master.allocateTask = some (master, .reduce nMap r) →
    ∀ i < job.master.nMap, Task.map i ∈ job.reports
  jobFinished : ∀ master, job.master.allocateTask = some (master, .jobFinished) →
    (∀ i < job.master.nMap, Task.map i ∈ job.reports) ∧
      ∀ r < job.master.nReduce, Task.reduce r ∈ job.reports
  done : job.master.done ↔ ∀ r < job.master.nReduce, Task.reduce r ∈ job.reports

/-- No task is reported that is recorded as finished. -/
def ReportedOnce (job : Job) : JobAction → Prop
  | .report w => ∀ task ∈ job.tasks w, job.master.status task ≠ some .finished
  | _ => True

instance (job : Job) : DecidablePred (ReportedOnce job)
  | .report _ => inferInstanceAs (Decidable (∀ _ ∈ _, _))
  | .allocate _ | .crash _ | .timeout _ => isTrue trivial

/-! ## Statuses and counters -/

section
variable {tasklog : List TaskStatus} {i : Nat}

/-- A task that is not finished is allocated or given up. -/
theorem set_finished_iff {s : TaskStatus} (hi : tasklog[i]? ≠ some .finished) (hs : s ≠ .finished)
    (j : Nat) :
    (tasklog.set i s)[j]? = some .finished ↔ tasklog[j]? = some .finished := by
  rw [List.getElem?_set]
  by_cases hij : i = j
  · subst hij
    by_cases hlen : i < tasklog.length
    · rw [if_pos rfl, if_pos hlen]
      exact iff_of_false (fun heq => hs (Option.some.inj heq)) hi
    · simp [hlen]
  · rw [if_neg hij]

/-- A task is finished. -/
theorem finish_iff (hi : i < tasklog.length) (j : Nat) :
    (tasklog.set i .finished)[j]? = some .finished ↔ tasklog[j]? = some .finished ∨ j = i := by
  rw [List.getElem?_set]
  by_cases hij : i = j
  · simp [hij, hij ▸ hi]
  · simp [hij, Ne.symm hij]

end

/-- The statuses of `n` tasks and the counter agree with what has been reported. -/
structure Tracks (n : Nat) (tasklog : List TaskStatus) (finished : Nat) (reported : Nat → Prop) :
    Prop where
  length_eq : tasklog.length = n
  count_eq : finished = tasklog.count .finished
  iff : ∀ i, tasklog[i]? = some .finished ↔ reported i

namespace Tracks

variable {n finished i : Nat} {tasklog : List TaskStatus} {reported : Nat → Prop}

theorem init (n : Nat) : Tracks n (List.replicate n .notAllocated) 0 fun _ => False := by
  refine ⟨List.length_replicate, ?_, fun i => ?_⟩
  · rw [List.count_replicate]
    rfl
  · rw [List.getElem?_replicate]
    split <;> simp

/-- There are at most as many finished tasks as tasks. -/
theorem le (h : Tracks n tasklog finished reported) : finished ≤ n := by
  rw [h.count_eq, ← h.length_eq]
  exact List.count_le_length

/-- The counter is `n` when all tasks are finished. -/
theorem eq_iff (h : Tracks n tasklog finished reported) : finished = n ↔ ∀ i < n, reported i := by
  rw [h.count_eq, ← h.length_eq, List.count_eq_length]
  constructor
  · intro hall i hi
    rw [← h.iff, List.getElem?_eq_getElem hi, ← hall _ (List.getElem_mem hi)]
  · intro hall s hs
    obtain ⟨i, hi, rfl⟩ := List.getElem_of_mem hs
    have hi' := (h.iff i).2 (hall i hi)
    rw [List.getElem?_eq_getElem hi] at hi'
    exact (Option.some.inj hi').symm

/-- A task is reported for the first time. -/
theorem finish (h : Tracks n tasklog finished reported) (hi : i < n)
    (hnew : tasklog[i]? ≠ some .finished) :
    Tracks n (tasklog.set i .finished) (finished + 1) fun j => reported j ∨ j = i := by
  have hlen : i < tasklog.length := h.length_eq ▸ hi
  refine ⟨(List.length_set).trans h.length_eq, ?_, fun j => ?_⟩
  · rw [List.getElem?_eq_getElem hlen] at hnew
    rw [h.count_eq, List.count_set hlen]
    have hne : (tasklog[i] == TaskStatus.finished) = false := by
      simpa using fun heq => hnew (congrArg some heq)
    simp [hne]
  · rw [finish_iff hlen, h.iff]

/-- A task that is not finished gets another status that is not `finished`. -/
theorem set (h : Tracks n tasklog finished reported) (hnew : tasklog[i]? ≠ some .finished)
    {s : TaskStatus} (hs : s ≠ .finished) : Tracks n (tasklog.set i s) finished reported := by
  refine ⟨(List.length_set).trans h.length_eq, ?_, fun j => ?_⟩
  · rw [h.count_eq]
    by_cases hlen : i < tasklog.length
    · rw [List.getElem?_eq_getElem hlen] at hnew
      have hne : (tasklog[i] == TaskStatus.finished) = false := by
        simpa using fun heq => hnew (congrArg some heq)
      rw [List.count_set hlen]
      simp [hne, hs]
    · rw [List.set_eq_of_length_le (not_lt.1 hlen)]
  · rw [set_finished_iff hnew hs, h.iff]

/-- Another description of what was reported. -/
theorem congr (h : Tracks n tasklog finished reported) {reported' : Nat → Prop}
    (hiff : ∀ i, reported i ↔ reported' i) : Tracks n tasklog finished reported' :=
  ⟨h.length_eq, h.count_eq, fun i => (h.iff i).trans (hiff i)⟩

end Tracks

/-! ## Steps of the coordinator -/

/-- The loop finds a task that is not allocated. -/
theorem firstNotAllocated_spec {n i : Nat} {tasklog : List TaskStatus}
    (h : firstNotAllocated n tasklog = some i) : i < n ∧ tasklog[i]? = some .notAllocated := by
  refine ⟨List.mem_range.1 (List.mem_of_find?_eq_some h), ?_⟩
  simpa using List.find?_some h

/-- What `AllocateTask` does: it changes nothing, or hands out a task that is not allocated. -/
inductive Allocated (m : Master) : Master → WorkerReply → Prop
  | waiting : Allocated m m .waiting
  | jobFinished (hmap : m.nMap ≤ m.mapfinished)
      (hreduce : m.mapfinished = m.nMap → m.nReduce ≤ m.reducefinished) :
        Allocated m m .jobFinished
  | map {i : Nat} {filename : GoString} (hi : m.maptasklog[i]? = some .notAllocated)
      (hfile : m.files[i]? = some filename) :
      Allocated m { m with maptasklog := m.maptasklog.set i .waiting } (.map m.nReduce i filename)
  | reduce {r : Nat} (hmap : m.mapfinished = m.nMap)
    (hr : m.reducetasklog[r]? = some .notAllocated) :
      Allocated m { m with reducetasklog := m.reducetasklog.set r .waiting } (.reduce m.nMap r)

/-- A call of `AllocateTask` is one of those that `Allocated` lists. -/
theorem allocateTask_cases {m m' : Master} {reply : WorkerReply}
    (h : m.allocateTask = some (m', reply)) : Allocated m m' reply := by
  unfold Master.allocateTask at h
  split at h
  · split at h
    · cases h
      exact .waiting
    · next i hi =>
      obtain ⟨filename, hfile, h⟩ := Option.bind_eq_some_iff.1 h
      cases h
      exact .map (firstNotAllocated_spec hi).2 hfile
  · next hmap =>
    split at h
    · next hphase =>
      split at h
      · cases h
        exact .waiting
      · next r hr =>
        cases h
        exact .reduce hphase.1 (firstNotAllocated_spec hr).2
    · next hphase =>
      cases h
      exact .jobFinished (not_lt.1 hmap) fun heq => not_lt.1 fun hlt => hphase ⟨heq, hlt⟩

/-- What every step of a coordinator keeps: its constants, and what is finished, but for a task
that is reported. -/
structure Master.Later (m m' : Master) (reported : Option Task) : Prop where
  files_eq : m'.files = m.files
  nMap_eq : m'.nMap = m.nMap
  nReduce_eq : m'.nReduce = m.nReduce
  finished_iff : ∀ task, m'.status task = some .finished ↔
    m.status task = some .finished ∨ task ∈ reported

namespace Master.Later

variable {m m' : Master}

theorem refl (m : Master) : Later m m none := ⟨rfl, rfl, rfl, fun _ => by simp⟩

/-- A map task that is not finished gets another status. -/
theorem set_map {i : Nat} {s : TaskStatus} (hi : m.maptasklog[i]? ≠ some .finished)
    (hs : s ≠ .finished) : Later m { m with maptasklog := m.maptasklog.set i s } none := by
  refine ⟨rfl, rfl, rfl, fun task => ?_⟩
  cases task with
  | map j => simpa [status] using set_finished_iff hi hs j
  | reduce r => simp [status]

/-- A reduce task that is not finished gets another status. -/
theorem set_reduce {r : Nat} {s : TaskStatus} (hr : m.reducetasklog[r]? ≠ some .finished)
    (hs : s ≠ .finished) : Later m { m with reducetasklog := m.reducetasklog.set r s } none := by
  refine ⟨rfl, rfl, rfl, fun task => ?_⟩
  cases task with
  | map j => simp [status]
  | reduce j => simpa [status] using set_finished_iff hr hs j

/-- `AllocateTask` finishes nothing. -/
theorem of_allocated {reply : WorkerReply} (h : Allocated m m' reply) : Later m m' none := by
  cases h with
  | waiting | jobFinished => exact .refl m
  | map hi => exact .set_map (by rw [hi]; decide) (by decide)
  | reduce _ hr => exact .set_reduce (by rw [hr]; decide) (by decide)

/-- A timer that goes off finishes nothing. -/
theorem of_expire (m : Master) (task : Task) : Later m (m.expire task) none := by
  cases task with
  | map i =>
    simp only [Master.expire, expireMap]
    split
    · next hi => exact .set_map (by rw [hi]; decide) (by decide)
    · exact .refl m
  | reduce r =>
    simp only [Master.expire, expireReduce]
    split
    · next hr => exact .set_reduce (by rw [hr]; decide) (by decide)
    · exact .refl m

/-- A report finishes its task. -/
theorem of_receiveFinished {task : Task} (h : m.receiveFinished task = some m') :
    Later m m' (some task) := by
  cases task with
  | map i =>
    simp only [Master.receiveFinished, receiveFinishedMap, Option.ite_none_right_eq_some] at h
    obtain ⟨hi, h⟩ := h
    cases h
    refine ⟨rfl, rfl, rfl, fun task => ?_⟩
    cases task with
    | map j => simpa [status, eq_comm] using finish_iff hi j
    | reduce r => simp [status]
  | reduce r =>
    simp only [Master.receiveFinished, receiveFinishedReduce, Option.ite_none_right_eq_some] at h
    obtain ⟨hr, h⟩ := h
    cases h
    refine ⟨rfl, rfl, rfl, fun task => ?_⟩
    cases task with
    | map j => simp [status]
    | reduce j => simpa [status, eq_comm] using finish_iff hr j

end Master.Later

/-- The state of a coordinator: its constants, and statuses and counters that agree with the
reports. -/
structure Master.Sound (files : List GoString) (nReduce : Nat) (reports : List Task) (m : Master) :
    Prop where
  files_eq : m.files = files
  nMap_eq : m.nMap = files.length
  nReduce_eq : m.nReduce = nReduce
  maps : Tracks files.length m.maptasklog m.mapfinished fun i => Task.map i ∈ reports
  reduces : Tracks nReduce m.reducetasklog m.reducefinished fun r => Task.reduce r ∈ reports

namespace Master.Sound

variable {files : List GoString} {nReduce : Nat} {reports : List Task} {m m' : Master}

theorem init (files : List GoString) (nReduce : Nat) :
    Sound files nReduce [] (makeMaster files nReduce) where
  files_eq := rfl
  nMap_eq := rfl
  nReduce_eq := rfl
  maps := (Tracks.init _).congr (by simp)
  reduces := (Tracks.init _).congr (by simp)

/-- `AllocateTask` keeps the counters right. -/
theorem allocateTask (h : Sound files nReduce reports m) {reply : WorkerReply}
    (hm : Allocated m m' reply) : Sound files nReduce reports m' := by
  cases hm with
  | waiting | jobFinished => exact h
  | map hi =>
    have hmaps := h.maps.set (by rw [hi]; decide) (s := .waiting) (by decide)
    exact ⟨h.files_eq, h.nMap_eq, h.nReduce_eq, hmaps, h.reduces⟩
  | reduce _ hr =>
    have hreduces := h.reduces.set (by rw [hr]; decide) (s := .waiting) (by decide)
    exact ⟨h.files_eq, h.nMap_eq, h.nReduce_eq, h.maps, hreduces⟩

/-- A timer that goes off keeps the counters right. -/
theorem expire (h : Sound files nReduce reports m) (task : Task) :
    Sound files nReduce reports (m.expire task) := by
  cases task with
  | map i =>
    simp only [Master.expire, expireMap]
    split
    · next hi =>
      have hmaps := h.maps.set (by rw [hi]; decide) (s := .notAllocated) (by decide)
      exact ⟨h.files_eq, h.nMap_eq, h.nReduce_eq, hmaps, h.reduces⟩
    · exact h
  | reduce r =>
    simp only [Master.expire, expireReduce]
    split
    · next hr =>
      have hreduces := h.reduces.set (by rw [hr]; decide) (s := .notAllocated) (by decide)
      exact ⟨h.files_eq, h.nMap_eq, h.nReduce_eq, h.maps, hreduces⟩
    · exact h

/-- A report is counted once. -/
theorem receiveFinished (h : Sound files nReduce reports m) {task : Task}
    (hm : m.receiveFinished task = some m') (honce : m.status task ≠ some .finished) :
    Sound files nReduce (reports ++ [task]) m' := by
  cases task with
  | map i =>
    simp only [Master.receiveFinished, receiveFinishedMap, Option.ite_none_right_eq_some] at hm
    obtain ⟨hi, hm⟩ := hm
    cases hm
    rw [h.maps.length_eq] at hi
    exact ⟨h.files_eq, h.nMap_eq, h.nReduce_eq, (h.maps.finish hi honce).congr (by simp),
      h.reduces.congr (by simp)⟩
  | reduce r =>
    simp only [Master.receiveFinished, receiveFinishedReduce, Option.ite_none_right_eq_some] at hm
    obtain ⟨hr, hm⟩ := hm
    cases hm
    rw [h.reduces.length_eq] at hr
    exact ⟨h.files_eq, h.nMap_eq, h.nReduce_eq, h.maps.congr (by simp),
      (h.reduces.finish hr honce).congr (by simp)⟩

end Master.Sound

/-! ## Phases -/

/-- Counters that agree with the reports gate the phases. -/
theorem Master.Sound.gated {files : List GoString} {nReduce : Nat} {job : Job}
    (h : job.master.Sound files nReduce job.reports) : Gated job := by
  have hmap := h.maps.eq_iff
  have hreduce := h.reduces.eq_iff
  rw [← h.nMap_eq] at hmap
  rw [← h.nReduce_eq] at hreduce
  have hle := h.maps.le
  have hle' := h.reduces.le
  rw [← h.nMap_eq] at hle
  rw [← h.nReduce_eq] at hle'
  refine ⟨fun master nMap r halloc => ?_, fun master halloc => ?_, ?_⟩
  · cases allocateTask_cases halloc with
    | reduce hall => exact hmap.1 hall
  · cases allocateTask_cases halloc with
    | jobFinished hge hge' =>
      have hall := le_antisymm hle hge
      exact ⟨hmap.1 hall, hreduce.1 (le_antisymm hle' (hge' hall))⟩
  · rw [← hreduce, Master.done, decide_eq_true_eq]

namespace Job

variable {job job' : Job} {w : Nat}

/-- What an allocation does to a job. -/
theorem allocate_cases {reply : WorkerReply} (h : job.allocate w = some (job', reply)) :
    job.tasks w = none ∧ Allocated job.master job'.master reply ∧
      job'.tasks = Function.update job.tasks w reply.task ∧ job'.reports = job.reports := by
  simp only [allocate, Option.ite_none_right_eq_some, Option.bind_eq_bind,
    Option.bind_eq_some_iff] at h
  obtain ⟨hw, ⟨m', reply⟩, hm, heq⟩ := h
  cases heq
  exact ⟨hw, allocateTask_cases hm, rfl, rfl⟩

/-- What a report does to a job. -/
theorem report_cases (h : job.report w = some job') :
    ∃ task, job.tasks w = some task ∧ job.master.receiveFinished task = some job'.master ∧
      job'.tasks = Function.update job.tasks w none ∧ job'.reports = job.reports ++ [task] := by
  simp only [report, Option.bind_eq_bind, Option.bind_eq_some_iff] at h
  obtain ⟨task, htask, m', hm, heq⟩ := h
  cases heq
  exact ⟨task, htask, hm, rfl, rfl⟩

/-- What a timer that goes off does to a job. -/
theorem timeout_cases {k : Nat} (h : job.timeout k = some job') :
    ∃ task, job'.master = job.master.expire task ∧ job'.tasks = job.tasks ∧
      job'.reports = job.reports := by
  simp only [timeout, Option.bind_eq_bind, Option.bind_eq_some_iff] at h
  obtain ⟨task, -, heq⟩ := h
  cases heq
  exact ⟨task, rfl, rfl, rfl⟩

/-- Every step that reports no finished task keeps the counters right. -/
theorem step_sound {files : List GoString} {nReduce : Nat} {a : JobAction}
    (h : job.master.Sound files nReduce job.reports) (honce : ReportedOnce job a)
    (hstep : job.step a = some job') : job'.master.Sound files nReduce job'.reports := by
  cases a with
  | allocate w =>
    obtain ⟨⟨job', reply⟩, halloc, rfl⟩ := Option.map_eq_some_iff.1 hstep
    obtain ⟨-, hm, -, hreports⟩ := allocate_cases halloc
    rw [hreports]
    exact h.allocateTask hm
  | report w =>
    obtain ⟨task, htask, hm, -, hreports⟩ := report_cases hstep
    rw [hreports]
    exact h.receiveFinished hm (honce task htask)
  | crash w =>
    cases hstep
    exact h
  | timeout k =>
    obtain ⟨task, hm, -, hreports⟩ := timeout_cases hstep
    rw [hm, hreports]
    exact h.expire task

end Job

/-- **Phases are gated by completion** as long as no task is reported again after it was recorded
as finished. -/
theorem phases_gated (files : List GoString) (nReduce : Nat) {job : Job}
    (h : Reach Job.step ReportedOnce (.init files nReduce) job) :
    Gated job ∧ job.master.nMap = files.length ∧ job.master.nReduce = nReduce := by
  have hsound : job.master.Sound files nReduce job.reports :=
    h.invariant (P := fun job => job.master.Sound files nReduce job.reports)
      (.init files nReduce) fun hs hok he => Job.step_sound hs hok he
  exact ⟨hsound.gated, hsound.nMap_eq, hsound.nReduce_eq⟩

/-- Two workers are given tasks that they report. -/
def twoReports : List JobAction := [.allocate 0, .allocate 1, .report 0, .report 1]

/-- Two map tasks are reported, and a reduce task is handed out. -/
theorem phases_gated_two : ∃ job, Reach Job.step ReportedOnce (.init [[0], [1]] 1) job ∧
    (job.master.allocateTask.map (·.2)) = some (.reduce 2 0) ∧
    (Gated job ∧ job.master.nMap = 2 ∧ job.master.nReduce = 1) :=
  ⟨_, reach_reached twoReports,
    by decide +kernel, phases_gated [[0], [1]] 1 (reach_reached twoReports)⟩

/-- A task times out, by timer `k`, and is allocated again, and both workers report it. -/
def reportTwice (k : Nat) : List JobAction :=
  [.allocate 0, .timeout k, .allocate 1, .report 0, .report 1]

/-- A task that is reported twice counts twice. If it is a map task, a reduce task is handed out
while the other map task is missing, and if it is the only reduce task, the job is not done. -/
theorem reportedTwice :
    (∃ job, Reach Job.step Always (.init [[0], [1]] 1) job ∧
      (job.master.allocateTask.map (·.2)) = some (.reduce 2 0) ∧ Task.map 1 ∉ job.reports) ∧
    ∃ job, Reach Job.step Always (.init [[0]] 1) job ∧
      Task.reduce 0 ∈ job.reports ∧ job.master.done = false :=
  ⟨⟨_, reach_reached (reportTwice 0), by decide +kernel⟩,
    ⟨_, reach_reached ([JobAction.allocate 0, .report 0] ++ reportTwice 1), by decide +kernel⟩⟩

end DistLabs.Mr
