import DistLabs.Mr.Output

/-!
# A job can be completed

A reduce task removes its inputs before it is reported, so a worker that crashes in between takes
the job with it. That is the only way, apart from reports that are counted twice: in every run
without them (`Undisturbed`) some continuation completes the job (`job_can_finish`), whatever else
has crashed, timed out, or been executed twice. Of several workers at one reduce task the one that
has removed most inputs can go on, because nobody has removed more (`Left`).

As in `Files`, every rename succeeds: a map task whose file is not renamed would be recorded as
finished, and the reduce task would not find its input whenever it is executed. The outputs have
the pairs as they are decoded (`KeyValue.decoded`).
-/

namespace DistLabs.Mr

open Lib

/-- Worker `w` has removed an input of its reduce task, which is not recorded as finished. -/
def Cluster.hasRemoved (c : Cluster) (w : Nat) : Bool :=
  match c.job.tasks w with
  | some (.reduce r) => c.job.master.status (.reduce r) ≠ some .finished ∧
      (c.procs w).code.length < c.job.master.nMap
  | _ => false

/-- No worker crashes between the first removal and its report, and no task is reported that is
recorded as finished. -/
def Undisturbed (c : Cluster) : ClusterAction → Prop
  | .report w => ReportedOnce c.job (.report w)
  | .crash w => c.hasRemoved w = false
  | _ => True

instance decidableUndisturbed (c : Cluster) : DecidablePred (Undisturbed c)
  | .report w => inferInstanceAs (Decidable (ReportedOnce c.job (.report w)))
  | .crash w => inferInstanceAs (Decidable (c.hasRemoved w = false))
  | .allocate _ | .run _ | .timeout _ => isTrue trivial

/-! ## Operations at reduce tasks -/

section
variable {app : App} {s : KeySort} {files : List GoString} {nReduce r : Nat} {fs fs' : Files}
  {p p' : Proc}

/-- An operation is the first one that is left, except that the loop over the distinct keys takes
several. -/
theorem Proc.step_code (hstep : p.step app s fs = some (fs', p')) :
    p'.code = p.code ∨ p'.code = p.code.tail := by
  obtain ⟨code, l, temp⟩ := p
  cases code with
  | nil =>
    cases hstep
    exact .inl rfl
  | cons instr code =>
    cases instr with
    | load name =>
      obtain ⟨file, -, heq⟩ := Option.bind_eq_some_iff.1 hstep
      cases heq
      exact .inr rfl
    | sort | create | encode kv | rename name =>
      cases hstep
      exact .inr rfl
    | print =>
      cases l with
      | nil =>
        cases hstep
        exact .inr rfl
      | cons kv rest =>
        cases hstep
        exact .inl rfl
    | remove name =>
      simp only [Proc.step, Option.ite_none_right_eq_some] at hstep
      obtain ⟨-, heq⟩ := hstep
      cases heq
      exact .inr rfl

/-- There is one removal for each input. -/
theorem length_removeCode (nMap r : Nat) : (removeCode nMap r).length = nMap := by
  rw [removeCode, List.length_map, List.length_range]

/-- Which input is removed next is a matter of how many are left. -/
theorem removing_head {instr : Instr} {code : List Instr} {nMap : Nat}
    (h : instr :: code <:+ removeCode nMap r) :
    instr = .remove (.intermediate (nMap - (code.length + 1)) r) := by
  obtain ⟨before, hbefore⟩ := h
  have hlen : before.length + (code.length + 1) = nMap := by
    rw [← length_removeCode nMap r, ← hbefore, List.length_append, List.length_cons]
  have hget : (removeCode nMap r)[before.length]? = some instr := by
    rw [← hbefore, List.getElem?_append_right le_rfl, Nat.sub_self]
    rfl
  rw [removeCode, List.getElem?_map, List.getElem?_range (by omega)] at hget
  rw [← Option.some.inj hget, ← hlen, Nat.add_sub_cancel]

/-- A worker that has renamed its output has at most the removals to go. -/
theorem Reducing.code_cases (h : Reducing app s files nReduce fs r p) :
    files.length < p.code.length ∨ p.code <:+ removeCode files.length r := by
  cases h with
  | loading _ _ _ hcode | sorted hcode | printing hcode | printed hcode =>
    left
    simp only [hcode, List.length_append, List.length_cons, length_removeCode]
    omega
  | renamed hcode => exact .inr hcode

/-- A worker with few operations to go has renamed its output. -/
theorem Reducing.suffix_of_le (h : Reducing app s files nReduce fs r p)
    (hle : p.code.length ≤ files.length) : p.code <:+ removeCode files.length r :=
  h.code_cases.resolve_left (not_lt.2 hle)

/-- An operation removes the next input, or no input at all, and then all of them are to be removed
yet. -/
theorem Reducing.step_left (h : Reducing app s files nReduce fs r p) (hcode : p.code ≠ [])
    (hstep : p.step app s fs = some (fs', p')) :
    (files.length ≤ p'.code.length ∧ files.length < p.code.length ∧
      ∀ i r', fs' (.intermediate i r') = fs (.intermediate i r')) ∨
    p.code.length ≤ files.length ∧ p'.code.length + 1 = p.code.length ∧
      fs' = Function.update fs (.intermediate (files.length - p.code.length) r) none := by
  obtain ⟨instr, code, hcons⟩ := List.exists_cons_of_ne_nil hcode
  rcases lt_or_ge files.length p.code.length with hlt | hle
  · have hlen : files.length ≤ p'.code.length := by
      rcases Proc.step_code hstep with heq | heq
      · rw [heq]
        exact hlt.le
      · rw [heq, List.length_tail]
        exact Nat.le_sub_one_of_lt hlt
    refine .inl ⟨hlen, hlt, ?_⟩
    -- what is left of the branch begins with an operation that is not a removal
    cases h with
    | loading loaded rest hrange hload =>
      cases rest with
      | nil =>
        simp only [Proc.step, hload, List.map_nil, List.nil_append] at hstep
        cases hstep
        exact fun _ _ => rfl
      | cons i rest =>
        simp only [Proc.step, hload, List.map_cons, List.cons_append] at hstep
        obtain ⟨file, -, heq⟩ := Option.bind_eq_some_iff.1 hstep
        cases heq
        exact fun _ _ => rfl
    | sorted hsorted =>
      simp only [Proc.step, hsorted] at hstep
      cases hstep
      exact fun _ _ => rfl
    | printing hprint =>
      simp only [Proc.step, hprint] at hstep
      split at hstep <;>
      · cases hstep
        exact fun _ _ => rfl
    | printed hrename =>
      simp only [Proc.step, hrename] at hstep
      cases hstep
      exact fun i r' => Function.update_of_ne (by simp) ..
    | renamed hsuffix =>
      have := hsuffix.length_le
      rw [length_removeCode] at this
      omega
  · have hsuffix := h.suffix_of_le hle
    rw [hcons] at hsuffix
    have hhead := removing_head hsuffix
    subst hhead
    simp only [Proc.step, hcons, Option.ite_none_right_eq_some] at hstep
    obtain ⟨-, heq⟩ := hstep
    cases heq
    exact .inr ⟨hle, by rw [hcons, List.length_cons], by rw [hcons, List.length_cons]⟩

end

/-! ## What is left of the inputs -/

/-- The last `m` inputs of reduce task `r` have not been removed. They are the ones that the worker
has to go that has removed most of them; if there is no such worker, they are all. -/
structure Left (files : List GoString) (c : Cluster) (r m : Nat) : Prop where
  le : m ≤ files.length
  worker : m < files.length → ∃ w, c.job.tasks w = some (.reduce r) ∧ (c.procs w).code.length = m
  least : ∀ w, c.job.tasks w = some (.reduce r) → m ≤ (c.procs w).code.length
  inputs : ∀ i < files.length, files.length ≤ i + m →
    c.job.master.status (.map i) = some .finished →
    (c.fs (.intermediate i r)).isSome

/-- What a worker at a map task has written is there. -/
def Written (app : App) (nReduce i : Nat) (fs : Files) (p : Proc) : Prop :=
  ∃ filename done rest, done ++ rest = List.range nReduce ∧ Mapping app nReduce i filename rest p ∧
    ∀ r ∈ done, (fs (.intermediate i r)).isSome

/-- What holds in every state of a run that is not disturbed. -/
structure Live (app : App) (s : KeySort) (files : List GoString) (nReduce : Nat) (c : Cluster) :
    Prop where
  right : c.Right app s files nReduce
  sound : c.job.master.Sound files nReduce c.job.reports
  timers : ∀ task, c.job.master.status task = some .waiting → task ∈ c.job.timers
  idle : ∃ n, ∀ w ≥ n, c.job.tasks w = none
  mapsFinished : ∀ w r, c.job.tasks w = some (.reduce r) → ∀ i < files.length,
    c.job.master.status (.map i) = some .finished
  maps : ∀ w i, c.job.tasks w = some (.map i) → c.job.master.status (.map i) ≠ some .finished →
    Written app nReduce i c.fs (c.procs w)
  left : ∀ r < nReduce, c.job.master.status (.reduce r) ≠ some .finished → ∃ m, Left files c r m

section
variable {app : App} {s : KeySort} {files : List GoString} {nReduce r m w : Nat} {fs fs' : Files}
  {p p' : Proc} {c c' : Cluster}

/-- A worker without a task, or with one that removes nothing yet, goes to another state like
that. -/
theorem Left.of_other {job : Job} {procs : Nat → Proc} (h : Left files c r m)
    (hother : ∀ w' ≠ w, job.tasks w' = c.job.tasks w' ∧ procs w' = c.procs w')
    (hbefore : c.job.tasks w = some (.reduce r) → m < files.length → m ≠ (c.procs w).code.length)
    (hafter : job.tasks w = some (.reduce r) → m ≤ (procs w).code.length)
    (hinputs : ∀ i < files.length, files.length ≤ i + m →
      job.master.status (.map i) = some .finished →
      (fs (.intermediate i r)).isSome) (mapped : List Nat) :
    Left files { job, procs, fs, mapped } r m where
  le := h.le
  worker hlt := by
    obtain ⟨w', htask, hlen⟩ := h.worker hlt
    have hne : w' ≠ w := by
      rintro rfl
      exact hbefore htask hlt hlen.symm
    obtain ⟨ht, hp⟩ := hother w' hne
    exact ⟨w', ht.trans htask, (congrArg (fun p => p.code.length) hp).trans hlen⟩
  least w' htask := by
    rcases eq_or_ne w' w with rfl | hne
    · exact hafter htask
    · obtain ⟨ht, hp⟩ := hother w' hne
      have hle := h.least w' (ht ▸ htask)
      change m ≤ (procs w').code.length
      rwa [hp]
  inputs := hinputs

/-- An operation at a map task removes nothing. -/
theorem Written.step {i : Nat} (h : Written app nReduce i fs p) (hcode : p.code ≠ [])
    (hstep : p.step app s fs = some (fs', p')) :
    Written app nReduce i fs' p' ∧ ∀ i r, (fs (.intermediate i r)).isSome →
      (fs' (.intermediate i r)).isSome := by
  obtain ⟨filename, done, rest, hrange, hmapping, hdone⟩ := h
  rcases hmapping.step hcode hstep with ⟨rfl, hmapping'⟩ | ⟨r, rest', rfl, hmapping', rfl⟩
  · exact ⟨⟨filename, done, rest, hrange, hmapping', hdone⟩, fun _ _ h => h⟩
  · have hkeep : ∀ i' r', (fs (.intermediate i' r')).isSome →
      (Function.update fs (.intermediate i r)
        (some ((app.share nReduce r (app.emitted filename)).map .pair))
          (.intermediate i' r')).isSome := by
      intro i' r' hsome
      rw [Function.update_apply]
      split
      · rfl
      · exact hsome
    refine ⟨⟨filename, done ++ [r], rest',
      by rw [← hrange, List.append_assoc]; rfl, hmapping', ?_⟩, hkeep⟩
    intro r' hmem
    rcases List.mem_append.1 hmem with hold | hnew
    · exact hkeep i r' (hdone r' hold)
    · rw [List.mem_singleton.1 hnew, Function.update_self]
      rfl

/-- A worker that is through with a map task has written all its files. -/
theorem Written.all {i : Nat} (h : Written app nReduce i fs p) (hcode : p.code = [])
    (hr : r < nReduce) :
    (fs (.intermediate i r)).isSome := by
  obtain ⟨filename, done, rest, hrange, hmapping, hdone⟩ := h
  rw [hmapping.rest_eq_nil hcode, List.append_nil] at hrange
  exact hdone r (hrange ▸ List.mem_range.2 hr)

/-- A status becomes `waiting` by allocation only. -/
theorem Allocated.waiting_cases {m m' : Master} {reply : WorkerReply} {task : Task}
    (h : Allocated m m' reply)
    (hw : m'.status task = some .waiting) :
    m.status task = some .waiting ∨ reply.task = some task := by
  cases h with
  | waiting | jobFinished => exact .inl hw
  | @map i =>
    cases task with
    | reduce => exact .inl hw
    | map j =>
      simp only [Master.status, List.getElem?_set] at hw
      split at hw
      · next heq => exact .inr (congrArg (fun i => some (Task.map i)) heq)
      · exact .inl hw
  | @reduce r =>
    cases task with
    | map => exact .inl hw
    | reduce j =>
      simp only [Master.status, List.getElem?_set] at hw
      split at hw
      · next heq => exact .inr (congrArg (fun r => some (Task.reduce r)) heq)
      · exact .inl hw

/-- The reply with a map task. -/
theorem Allocated.of_map {m m' : Master} {reply : WorkerReply} {i : Nat} (h : Allocated m m' reply)
    (htask : reply.task = some (.map i)) : ∃ filename, reply = .map m.nReduce i filename := by
  cases h with
  | waiting | jobFinished | reduce => cases htask
  | map =>
    cases htask
    exact ⟨_, rfl⟩

/-- The reply with a reduce task. -/
theorem Allocated.of_reduce {m m' : Master} {reply : WorkerReply} {r : Nat}
    (h : Allocated m m' reply)
    (htask : reply.task = some (.reduce r)) :
    reply = .reduce m.nMap r ∧ m.mapfinished = m.nMap := by
  cases h with
  | waiting | jobFinished | map => cases htask
  | reduce hmaps =>
    cases htask
    exact ⟨rfl, hmaps⟩

/-- Assigning another status than `waiting` makes nothing wait. -/
theorem waiting_of_set {tasklog : List TaskStatus} {i j : Nat} {status : TaskStatus}
    (hne : status ≠ .waiting)
    (h : (tasklog.set i status)[j]? = some .waiting) : tasklog[j]? = some .waiting ∧ j ≠ i := by
  rw [List.getElem?_set] at h
  split at h
  · split at h
    · exact absurd (Option.some.inj h) hne
    · cases h
  · next hij => exact ⟨h, Ne.symm hij⟩

/-- A report makes nothing wait. -/
theorem receiveFinished_waiting {m m' : Master} {task task' : Task}
    (h : m.receiveFinished task = some m')
    (hw : m'.status task' = some .waiting) : m.status task' = some .waiting := by
  cases task with
  | map i =>
    simp only [Master.receiveFinished, Master.receiveFinishedMap,
      Option.ite_none_right_eq_some] at h
    obtain ⟨-, h⟩ := h
    cases h
    cases task' with
    | reduce => exact hw
    | map j => exact (waiting_of_set (by decide) hw).1
  | reduce r =>
    simp only [Master.receiveFinished, Master.receiveFinishedReduce,
      Option.ite_none_right_eq_some] at h
    obtain ⟨-, h⟩ := h
    cases h
    cases task' with
    | map => exact hw
    | reduce j => exact (waiting_of_set (by decide) hw).1

/-- A task whose timer goes off does not wait. -/
theorem expire_waiting {m : Master} {task task' : Task}
    (hw : (m.expire task).status task' = some .waiting) :
    m.status task' = some .waiting ∧ task' ≠ task := by
  cases task with
  | map i =>
    simp only [Master.expire, Master.expireMap] at hw
    split at hw
    · cases task' with
      | reduce => exact ⟨hw, Task.noConfusion⟩
      | map j =>
        obtain ⟨hj, hne⟩ := waiting_of_set (by decide) hw
        exact ⟨hj, fun heq => hne (Task.map.inj heq)⟩
    · next hno =>
      refine ⟨hw, ?_⟩
      rintro rfl
      exact hno hw
  | reduce r =>
    simp only [Master.expire, Master.expireReduce] at hw
    split at hw
    · cases task' with
      | map => exact ⟨hw, Task.noConfusion⟩
      | reduce j =>
        obtain ⟨hj, hne⟩ := waiting_of_set (by decide) hw
        exact ⟨hj, fun heq => hne (Task.reduce.inj heq)⟩
    · next hno =>
      refine ⟨hw, ?_⟩
      rintro rfl
      exact hno hw

/-- An allocation starts the timer of its task. -/
theorem allocate_timers {job job' : Job} {reply : WorkerReply}
    (h : job.allocate w = some (job', reply)) :
    job'.timers = job.timers ++ reply.task.toList := by
  simp only [Job.allocate, Option.ite_none_right_eq_some, Option.bind_eq_bind,
    Option.bind_eq_some_iff] at h
  obtain ⟨-, ⟨m', reply⟩, -, heq⟩ := h
  cases heq
  rfl

/-- A report leaves the timers alone. -/
theorem report_timers {job job' : Job} (h : job.report w = some job') :
    job'.timers = job.timers := by
  simp only [Job.report, Option.bind_eq_bind, Option.bind_eq_some_iff] at h
  obtain ⟨task, -, m', -, heq⟩ := h
  cases heq
  rfl

/-- A timer that goes off is gone. -/
theorem timeout_timers {job job' : Job} {k : Nat} (h : job.timeout k = some job') :
    ∃ task, job.timers[k]? = some task ∧ job'.master = job.master.expire task ∧
      job'.timers = job.timers.eraseIdx k := by
  simp only [Job.timeout, Option.bind_eq_bind, Option.bind_eq_some_iff] at h
  obtain ⟨task, htask, heq⟩ := h
  cases heq
  exact ⟨task, htask, rfl, rfl⟩

end

namespace Live

variable {app : App} {s : KeySort} {files : List GoString} {nReduce r m w : Nat} {fs fs' : Files}
  {p p' : Proc} {c c' : Cluster}

theorem init (app : App) (s : KeySort) (files : List GoString) (nReduce : Nat) :
    Live app s files nReduce (.init files nReduce) where
  right := .init app s files nReduce
  sound := .init files nReduce
  timers task h := by
    cases task with
    | map i | reduce i =>
      simp only [Cluster.init, Job.init, Master.makeMaster, Master.status,
        List.getElem?_replicate] at h
      split at h <;> cases h
  idle := ⟨0, fun _ _ => rfl⟩
  mapsFinished _ _ h := by cases h
  maps _ _ h := by cases h
  left r _ _ := by
    refine ⟨files.length, le_rfl, fun h => absurd h (lt_irrefl _), fun w h => ?_,
      fun i _ _ h => ?_⟩
    · cases h
    simp only [Cluster.init, Job.init, Master.makeMaster, Master.status,
      List.getElem?_replicate] at h
    split at h <;> cases h

/-- A worker at a reduce task. -/
theorem reducing (h : Live app s files nReduce c) (htask : c.job.tasks w = some (.reduce r)) :
    Reducing app s files nReduce c.fs r (c.procs w) := by
  have hat := h.right.workers w
  rwa [htask] at hat

/-- The index of a map task that a worker has. -/
theorem map_lt (h : Live app s files nReduce c) {i : Nat} (htask : c.job.tasks w = some (.map i)) :
    i < files.length := by
  have hat := h.right.workers w
  rw [htask] at hat
  obtain ⟨filename, rest, hfile, -⟩ := hat
  exact (List.getElem?_eq_some_iff.1 hfile).1

/-- There are still workers without a task when one gets a task. -/
theorem idle_update {tasks : Nat → Option Task} (h : ∃ n, ∀ w ≥ n, tasks w = none) (w : Nat)
    (task : Option Task) :
    ∃ n, ∀ w' ≥ n, Function.update tasks w task w' = none := by
  obtain ⟨n, hn⟩ := h
  refine ⟨max n (w + 1), fun w' hw' => ?_⟩
  rw [Function.update_of_ne (by omega)]
  exact hn w' (le_of_max_le_left hw')

theorem allocate {job : Job} {reply : WorkerReply} (h : Live app s files nReduce c)
    (halloc : c.job.allocate w = some (job, reply)) :
    Live app s files nReduce
      { c with job, procs := Function.update c.procs w (app.start reply) } := by
  obtain ⟨hnone, hm, htasks, -⟩ := Job.allocate_cases halloc
  have hlater := Master.Later.of_allocated hm
  have hfinished : ∀ task, job.master.status task = some .finished ↔
      c.job.master.status task = some .finished := by
    intro task
    simpa using hlater.finished_iff task
  have hstep : c.step app s (.allocate w) =
      some { c with job, procs := Function.update c.procs w (app.start reply) } := by
    rw [Cluster.step, halloc]
    rfl
  refine ⟨h.right.step hstep, Cluster.step_sound (a := .allocate w) h.sound trivial hstep,
    fun task hw => ?_, ?_, ?_, ?_, ?_⟩
  · change task ∈ job.timers
    rw [allocate_timers halloc, List.mem_append, Option.mem_toList]
    rcases hm.waiting_cases hw with hold | hnew
    · exact .inl (h.timers task hold)
    · exact .inr hnew
  · change ∃ n, ∀ w ≥ n, job.tasks w = none
    rw [htasks]
    exact idle_update h.idle w _
  · intro w' r htask i hi
    change job.tasks w' = some (.reduce r) at htask
    rw [hfinished]
    rw [htasks, Function.update_apply] at htask
    split at htask
    · have hmaps := (hm.of_reduce htask).2
      rw [h.sound.nMap_eq, h.sound.maps.eq_iff] at hmaps
      exact (h.sound.maps.iff i).2 (hmaps i hi)
    · exact h.mapsFinished w' r htask i hi
  · intro w' i htask hno
    change job.tasks w' = some (.map i) at htask
    rw [htasks, Function.update_apply] at htask
    change Written app nReduce i c.fs (Function.update c.procs w (app.start reply) w')
    split at htask
    · next heq =>
      obtain ⟨filename, rfl⟩ := hm.of_map htask
      rw [heq, Function.update_self]
      refine ⟨filename, [], List.range nReduce, rfl, .inl ?_, fun r hr => by cases hr⟩
      rw [← h.right.nReduce_eq]
      exact mapCode_eq ..
    · next hne =>
      rw [Function.update_of_ne hne]
      exact h.maps w' i htask fun hyes => hno ((hfinished _).2 hyes)
  · intro r hr hno
    obtain ⟨m, hleft⟩ := h.left r hr fun hyes => hno ((hfinished _).2 hyes)
    refine ⟨m, hleft.of_other (w := w) (fun w' hne => ?_) (fun htask => ?_) (fun htask => ?_) ?_ _⟩
    · rw [htasks, Function.update_of_ne hne, Function.update_of_ne hne]
      exact ⟨rfl, rfl⟩
    · rw [hnone] at htask
      cases htask
    · rw [htasks, Function.update_self] at htask
      obtain ⟨rfl, -⟩ := hm.of_reduce htask
      rw [Function.update_self]
      refine hleft.le.trans ?_
      simp only [App.start, reduceCode, List.length_append, List.length_map, List.length_range,
        h.right.nMap_eq]
      omega
    · intro i hi hle hyes
      exact hleft.inputs i hi hle ((hfinished _).1 hyes)

/-- A worker crashes that is not the one that has removed most inputs of its task. -/
theorem crash (h : Live app s files nReduce c)
    (hcrash : ∀ r m, c.job.tasks w = some (.reduce r) →
      c.job.master.status (.reduce r) ≠ some .finished →
      Left files c r m → m < files.length → m ≠ (c.procs w).code.length) :
    Live app s files nReduce (c.crash w) := by
  have hother : ∀ w' task, (c.crash w).job.tasks w' = some task →
      w' ≠ w ∧ c.job.tasks w' = some task := by
    intro w' task htask
    simp only [Cluster.crash, Job.crash, Function.update_apply] at htask
    split at htask
    · cases htask
    · next hne => exact ⟨hne, htask⟩
  refine ⟨h.right.crash w, h.sound, h.timers, idle_update h.idle w none, ?_, ?_, ?_⟩
  · intro w' r htask
    exact h.mapsFinished w' r (hother w' _ htask).2
  · intro w' i htask hno
    obtain ⟨hne, hold⟩ := hother w' _ htask
    simp only [Cluster.crash, Function.update_of_ne hne]
    exact h.maps w' i hold hno
  · intro r hr hno
    obtain ⟨m, hleft⟩ := h.left r hr hno
    refine ⟨m, hleft.of_other (w := w) (fun w' hne => ?_) (fun htask => hcrash r m htask hno hleft)
      (fun htask => absurd rfl (hother w _ htask).1) hleft.inputs _⟩
    exact ⟨Function.update_of_ne hne .., Function.update_of_ne hne ..⟩

/-- A worker does not miss an input if nobody has removed more than it has. -/
theorem fail (h : Live app s files nReduce c) (hcode : (c.procs w).code ≠ [])
    (hstep : (c.procs w).step app s c.fs = none) : Live app s files nReduce (c.crash w) := by
  refine h.crash fun r m htask hno hleft hlt heq => ?_
  obtain ⟨instr, code, hcons⟩ := List.exists_cons_of_ne_nil hcode
  have hsuffix := (h.reducing htask).suffix_of_le (heq ▸ hlt.le)
  rw [hcons] at hsuffix
  have hlen : m = code.length + 1 := by rw [heq, hcons, List.length_cons]
  have hsome : (c.fs (.intermediate (files.length - (code.length + 1)) r)).isSome :=
    hleft.inputs _ (by omega) (by omega) (h.mapsFinished w r htask _ (by omega))
  rw [removing_head hsuffix] at hcons
  simp only [Proc.step, hcons, hsome, if_true] at hstep
  cases hstep

/-- A worker at a map task removes nothing, and at a reduce task only inputs of that task. -/
theorem step_keeps (h : Live app s files nReduce c) {i r : Nat} (hcode : (c.procs w).code ≠ [])
    (hstep : (c.procs w).step app s c.fs = some (fs', p')) (hne : c.job.tasks w ≠ some (.reduce r))
    (hsome : (c.fs (.intermediate i r)).isSome) : (fs' (.intermediate i r)).isSome := by
  have hat := h.right.workers w
  cases htask : c.job.tasks w with
  | none =>
    rw [htask] at hat
    exact absurd hat hcode
  | some task =>
    cases task with
    | map j =>
      rw [htask] at hat
      obtain ⟨filename, rest, -, hmapping⟩ := hat
      rcases hmapping.step hcode hstep with ⟨rfl, -⟩ | ⟨r', rest', -, -, rfl⟩
      · exact hsome
      · rw [Function.update_apply]
        split
        · rfl
        · exact hsome
    | reduce r' =>
      rcases (h.reducing htask).step_left hcode hstep with ⟨-, -, hsame⟩ | ⟨-, -, rfl⟩
      · rwa [hsame]
      · rw [Function.update_of_ne]
        · exact hsome
        · rintro heq
          cases heq
          exact hne htask

/-- An operation of a worker. -/
theorem run (h : Live app s files nReduce c) (hcode : (c.procs w).code ≠ [])
    (hstep : (c.procs w).step app s c.fs = some (fs', p')) :
    Live app s files nReduce { c with
      fs := fs'
      procs := Function.update c.procs w p'
      mapped := c.mapped ++ completedMap (c.job.tasks w) p' } := by
  have hrun : c.step app s (.run w) = some { c with
      fs := fs'
      procs := Function.update c.procs w p'
      mapped := c.mapped ++ completedMap (c.job.tasks w) p' } := by
    simp only [Cluster.step, if_neg hcode, hstep]
  have hfs := fun i r hne => h.step_keeps (i := i) (r := r) hcode hstep hne
  refine ⟨h.right.step hrun, h.sound, h.timers, h.idle, h.mapsFinished, ?_, ?_⟩
  · intro w' i htask hno
    change Written app nReduce i fs' (Function.update c.procs w p' w')
    have hold := h.maps w' i htask hno
    rcases eq_or_ne w' w with rfl | hne
    · rw [Function.update_self]
      exact (hold.step hcode hstep).1
    · rw [Function.update_of_ne hne]
      obtain ⟨filename, done, rest, hrange, hmapping, hdone⟩ := hold
      refine ⟨filename, done, rest, hrange, hmapping, fun r hr =>
        hfs i r (fun hreduce => ?_) (hdone r hr)⟩
      exact hno (h.mapsFinished w r hreduce i (h.map_lt htask))
  · intro r hr hno
    obtain ⟨m, hleft⟩ := h.left r hr hno
    have hother : ∀ w' ≠ w, c.job.tasks w' = c.job.tasks w' ∧
        Function.update c.procs w p' w' = c.procs w' :=
      fun w' hne => ⟨rfl, Function.update_of_ne hne ..⟩
    by_cases htask : c.job.tasks w = some (.reduce r)
    · have hle := hleft.least w htask
      rcases (h.reducing htask).step_left hcode hstep with
        ⟨hlen', hlen, hsame⟩ | ⟨hlen, hlen', rfl⟩
      · refine ⟨m, hleft.of_other (w := w) hother (fun _ hlt heq => by omega) (fun _ => ?_) ?_ _⟩
        · rw [Function.update_self]
          exact hleft.le.trans hlen'
        · intro i hi hi' hyes
          rw [hsame]
          exact hleft.inputs i hi hi' hyes
      · rcases hle.eq_or_lt with heq | hlt
        · -- this is the worker that has removed most
          refine ⟨p'.code.length,
            by omega, fun _ => ⟨w, htask, by simp only [Function.update_self]⟩, ?_, ?_⟩
          · intro w' htask'
            rcases eq_or_ne w' w with rfl | hne
            · simp only [Function.update_self, le_refl]
            · have := hleft.least w' htask'
              simp only [Function.update_of_ne hne]
              omega
          · intro i hi hi' hyes
            simp only
            rw [Function.update_of_ne]
            · exact hleft.inputs i hi (by omega) hyes
            · rintro hname
              cases hname
              omega
        · refine ⟨m, hleft.of_other (w := w) hother (fun _ _ heq => by omega) (fun _ => ?_) ?_ _⟩
          · rw [Function.update_self]
            omega
          · intro i hi hi' hyes
            rw [Function.update_of_ne]
            · exact hleft.inputs i hi hi' hyes
            · rintro hname
              cases hname
              omega
    · exact ⟨m, hleft.of_other (w := w) hother (fun h => absurd h htask) (fun h => absurd h htask)
        (fun i hi hi' hyes => hfs i r htask (hleft.inputs i hi hi' hyes)) _⟩

theorem report {job : Job} (h : Live app s files nReduce c) (hcode : (c.procs w).code = [])
    (honce : ReportedOnce c.job (.report w)) (hreport : c.job.report w = some job) :
    Live app s files nReduce { c with job } := by
  obtain ⟨task, htask, hm, htasks, -⟩ := Job.report_cases hreport
  have hlater := Master.Later.of_receiveFinished hm
  have hstep : c.step app s (.report w) = some { c with job } := by
    rw [Cluster.step, if_pos hcode, hreport]
    rfl
  have hother : ∀ w' task, job.tasks w' = some task → w' ≠ w ∧ c.job.tasks w' = some task := by
    intro w' task' htask'
    rw [htasks, Function.update_apply] at htask'
    split at htask'
    · cases htask'
    · next hne => exact ⟨hne, htask'⟩
  refine ⟨h.right.step hstep, Cluster.step_sound (a := .report w) h.sound honce hstep,
    fun task' hw => ?_, ?_, ?_, ?_, ?_⟩
  · change task' ∈ job.timers
    rw [report_timers hreport]
    exact h.timers task' (receiveFinished_waiting hm hw)
  · change ∃ n, ∀ w ≥ n, job.tasks w = none
    rw [htasks]
    exact idle_update h.idle w none
  · intro w' r hreduce i hi
    exact (hlater.finished_iff _).2 (.inl (h.mapsFinished w' r (hother w' _ hreduce).2 i hi))
  · intro w' i hmap hno
    exact h.maps w' i (hother w' _ hmap).2 fun hyes => hno ((hlater.finished_iff _).2 (.inl hyes))
  · intro r hr hno
    obtain ⟨m, hleft⟩ := h.left r hr fun hyes => hno ((hlater.finished_iff _).2 (.inl hyes))
    refine ⟨m, hleft.of_other (w := w) (fun w' hne => ⟨?_, rfl⟩) (fun hreduce => ?_)
      (fun hreduce => absurd rfl (hother w _ hreduce).1) ?_ _⟩
    · rw [htasks, Function.update_of_ne hne]
    · -- the task is recorded as finished now
      rw [htask] at hreduce
      cases hreduce
      exact absurd ((hlater.finished_iff _).2 (.inr rfl)) hno
    · intro i hi hi' hyes
      rcases (hlater.finished_iff _).1 hyes with hold | hnew
      · exact hleft.inputs i hi hi' hold
      · cases hnew
        exact (h.maps w i htask (honce _ htask)).all hcode hr

theorem timeout {job : Job} {k : Nat} (h : Live app s files nReduce c)
    (htimeout : c.job.timeout k = some job) : Live app s files nReduce { c with job } := by
  obtain ⟨task, htask, hm, htimers⟩ := timeout_timers htimeout
  obtain ⟨-, -, htasks, -⟩ := Job.timeout_cases htimeout
  have hfinished : ∀ task, job.master.status task = some .finished ↔
      c.job.master.status task = some .finished := by
    intro task'
    rw [hm]
    simpa using (Master.Later.of_expire c.job.master task).finished_iff task'
  have hstep : c.step app s (.timeout k) = some { c with job } := by
    rw [Cluster.step, htimeout]
    rfl
  refine ⟨h.right.step hstep, Cluster.step_sound (a := .timeout k) h.sound trivial hstep,
    fun task' hw => ?_, ?_, ?_, ?_, ?_⟩
  · change job.master.status task' = some .waiting at hw
    rw [hm] at hw
    obtain ⟨hold, hne⟩ := expire_waiting hw
    change task' ∈ job.timers
    rw [htimers, List.mem_eraseIdx_iff_getElem?]
    obtain ⟨j, hj⟩ := List.mem_iff_getElem?.1 (h.timers task' hold)
    refine ⟨j, ?_, hj⟩
    rintro rfl
    rw [htask] at hj
    exact hne (Option.some.inj hj).symm
  · change ∃ n, ∀ w ≥ n, job.tasks w = none
    rw [htasks]
    exact h.idle
  · intro w' r hreduce i hi
    change job.tasks w' = some (.reduce r) at hreduce
    rw [htasks] at hreduce
    exact (hfinished _).2 (h.mapsFinished w' r hreduce i hi)
  · intro w' i hmap hno
    change job.tasks w' = some (.map i) at hmap
    rw [htasks] at hmap
    exact h.maps w' i hmap fun hyes => hno ((hfinished _).2 hyes)
  · intro r hr hno
    obtain ⟨m, hleft⟩ := h.left r hr fun hyes => hno ((hfinished _).2 hyes)
    refine ⟨m, hleft.le, fun hlt => ?_, fun w' hreduce => ?_, fun i hi hi' hyes => ?_⟩
    · obtain ⟨w', htask', hlen⟩ := hleft.worker hlt
      refine ⟨w', ?_, hlen⟩
      change job.tasks w' = _
      rw [htasks, htask']
    · change job.tasks w' = some (.reduce r) at hreduce
      rw [htasks] at hreduce
      exact hleft.least w' hreduce
    · exact hleft.inputs i hi hi' ((hfinished _).1 hyes)

/-- Every step that does not disturb the job keeps it alive. -/
theorem step {a : ClusterAction} (h : Live app s files nReduce c) (hok : Undisturbed c a)
    (hstep : c.step app s a = some c') : Live app s files nReduce c' := by
  cases a with
  | allocate w =>
    cases Cluster.stepped_of_step hstep with
    | allocate halloc => exact h.allocate halloc
  | run w =>
    simp only [Cluster.step] at hstep
    split at hstep
    · cases hstep
    next hcode =>
    split at hstep
    · next hfail =>
      cases hstep
      exact h.fail hcode hfail
    · next fs p hrun =>
      cases hstep
      exact h.run hcode hrun
  | report w =>
    cases Cluster.stepped_of_step hstep with
    | report hcode hreport => exact h.report hcode hok hreport
  | crash w =>
    cases hstep
    refine h.crash fun r m htask hno hleft hlt heq => ?_
    have hkept : c.hasRemoved w = false := hok
    simp only [Cluster.hasRemoved, htask] at hkept
    exact of_decide_eq_false hkept ⟨hno, by rw [h.right.nMap_eq, ← heq]; exact hlt⟩
  | timeout k =>
    cases Cluster.stepped_of_step hstep with
    | timeout htimeout => exact h.timeout htimeout

/-- A job that is not disturbed stays alive. -/
theorem reach (h : Live app s files nReduce c)
    (hreach : Reach (Cluster.step app s) Undisturbed c c') :
    Live app s files nReduce c' :=
  hreach.invariant (P := Live app s files nReduce) h fun hs hok he => hs.step hok he

end Live

/-! ## Going on -/

/-- The number of reports that are missing. -/
def Master.missing (m : Master) : Nat := m.nMap - m.mapfinished + (m.nReduce - m.reducefinished)

section
variable {app : App} {s : KeySort} {files : List GoString} {nReduce r w : Nat} {fs fs' : Files}
  {p : Proc}
  {c : Cluster}

/-- A worker goes on for a while. -/
theorem Cluster.reach_runs {x : Files × Proc} (h : Runs app s (c.fs, c.procs w) x) :
    ∃ mapped, Reach (Cluster.step app s) Undisturbed c
      { c with fs := x.1, procs := Function.update c.procs w x.2, mapped } := by
  induction h with
  | refl =>
    refine ⟨c.mapped, ?_⟩
    rw [Function.update_eq_self]
    exact .init
  | @tail y z _ hstep ih =>
    obtain ⟨mapped, hreach⟩ := ih
    refine ⟨mapped ++ completedMap (c.job.tasks w) z.2, hreach.step (e := .run w) trivial ?_⟩
    simp only [Cluster.step, Function.update_self, if_neg hstep.1, hstep.2, Function.update_idem]

/-- Files that are there can be removed one after the other. -/
theorem runs_removals {names : List FileName} (hnodup : names.Nodup)
    (h : ∀ name ∈ names, (fs name).isSome)
    (hcode : p.code = names.map .remove) :
    ∃ fs' p', Runs app s (fs, p) (fs', p') ∧ p'.code = [] := by
  induction names generalizing fs p with
  | nil => exact ⟨fs, p, .refl, hcode⟩
  | cons name names ih =>
    obtain ⟨hname, hnodup⟩ := List.nodup_cons.1 hnodup
    have hrest : ∀ name' ∈ names, (Function.update fs name none name').isSome := by
      intro name' hmem
      rw [Function.update_of_ne (ne_of_mem_of_not_mem hmem hname)]
      exact h name' (List.mem_cons_of_mem name hmem)
    obtain ⟨fs', p', hruns, hnil⟩ :=
      ih (p := { p with code := names.map .remove }) hnodup hrest rfl
    refine ⟨fs', p', .head ⟨?_, ?_⟩ hruns, hnil⟩
    · rw [hcode]
      exact List.cons_ne_nil _ _
    · simp only [Proc.step, hcode, List.map_cons, h name List.mem_cons_self, if_true]

/-- A report that is missing can be made. -/
theorem Master.Sound.exists_receiveFinished {reports : List Task} {m : Master} {task : Task}
    {status : TaskStatus}
    (h : m.Sound files nReduce reports) (hstatus : m.status task = some status)
    (hne : status ≠ .finished) :
    ∃ m', m.receiveFinished task = some m' ∧ m'.missing < m.missing := by
  cases task with
  | map i =>
    have hi : i < m.maptasklog.length := (List.getElem?_eq_some_iff.1 hstatus).1
    have hlt : m.mapfinished < files.length := by
      refine lt_of_le_of_ne h.maps.le fun heq => hne ?_
      have hall := h.maps.eq_iff.1 heq i (h.maps.length_eq ▸ hi)
      rw [← h.maps.iff i] at hall
      exact Option.some.inj (hstatus.symm.trans hall)
    refine ⟨_, if_pos hi, ?_⟩
    simp only [Master.missing, h.nMap_eq]
    omega
  | reduce r =>
    have hr : r < m.reducetasklog.length := (List.getElem?_eq_some_iff.1 hstatus).1
    have hlt : m.reducefinished < nReduce := by
      refine lt_of_le_of_ne h.reduces.le fun heq => hne ?_
      have hall := h.reduces.eq_iff.1 heq r (h.reduces.length_eq ▸ hr)
      rw [← h.reduces.iff r] at hall
      exact Option.some.inj (hstatus.symm.trans hall)
    refine ⟨_, if_pos hr, ?_⟩
    simp only [Master.missing, h.nReduce_eq]
    omega

/-- If nothing waits and a report is missing, there is something to allocate. -/
theorem Tracks.exists_notAllocated {n finished : Nat} {tasklog : List TaskStatus}
    {reported : Nat → Prop} (h : Tracks n tasklog finished reported) (hlt : finished < n)
    (hwaiting : ∀ i : Nat, tasklog[i]? ≠ some .waiting) :
    ∃ i, firstNotAllocated n tasklog = some i := by
  have hex : ∃ i < n, ¬ reported i := by
    by_contra hall
    push Not at hall
    exact hlt.ne (h.eq_iff.2 hall)
  obtain ⟨i, hi, hno⟩ := hex
  rw [← h.iff] at hno
  refine Option.isSome_iff_exists.1 (List.find?_isSome.2 ⟨i, List.mem_range.2 hi, ?_⟩)
  obtain ⟨status, hlog⟩ : ∃ status, tasklog[i]? = some status :=
    ⟨_, List.getElem?_eq_getElem (h.length_eq ▸ hi)⟩
  cases status with
  | notAllocated => rw [hlog, decide_eq_true rfl]
  | waiting => exact absurd hlog (hwaiting i)
  | finished => exact absurd hlog hno

/-- The counters stay. -/
theorem missing_expire (m : Master) (task : Task) :
    (m.expire task).missing = m.missing ∧ (m.expire task).done = m.done := by
  cases task with
  | map i =>
    simp only [Master.expire, Master.expireMap]
    split <;> exact ⟨rfl, rfl⟩
  | reduce r =>
    simp only [Master.expire, Master.expireReduce]
    split <;> exact ⟨rfl, rfl⟩

namespace Live

/-- All timers go off. -/
theorem exists_expired (h : Live app s files nReduce c) :
    ∃ c', Reach (Cluster.step app s) Undisturbed c c' ∧ c'.job.timers = [] ∧
      c'.job.master.missing = c.job.master.missing ∧ c'.job.master.done = c.job.master.done := by
  induction hn : c.job.timers.length generalizing c with
  | zero => exact ⟨c, .init, List.length_eq_zero_iff.1 hn, rfl, rfl⟩
  | succ n ih =>
    obtain ⟨task, timers, htimers⟩ := List.exists_cons_of_length_eq_add_one hn
    have hstep : c.step app s (.timeout 0) =
        some { c with job := { c.job with master := c.job.master.expire task, timers } } := by
      simp only [Cluster.step, Job.timeout, htimers]
      rfl
    have hlen : timers.length = n := by
      rw [htimers] at hn
      exact Nat.succ.inj hn
    obtain ⟨c', hreach, hnil, hmissing, hdone⟩ := ih (h.step (a := .timeout 0) trivial hstep) hlen
    exact ⟨c', (Reach.init.step (e := .timeout 0) trivial hstep).trans hreach, hnil,
      hmissing.trans (missing_expire _ task).1, hdone.trans (missing_expire _ task).2⟩

/-- A worker finishes its task and reports it. -/
theorem exists_reported {task : Task} {status : TaskStatus} (h : Live app s files nReduce c)
    (htask : c.job.tasks w = some task) (hstatus : c.job.master.status task = some status)
    (hne : status ≠ .finished) (hruns : Runs app s (c.fs, c.procs w) (fs', p))
    (hcode : p.code = []) :
    ∃ c', Reach (Cluster.step app s) Undisturbed c c' ∧
      c'.job.master.missing < c.job.master.missing := by
  obtain ⟨mapped, hreach⟩ := Cluster.reach_runs hruns
  obtain ⟨m', hm', hlt⟩ := h.sound.exists_receiveFinished hstatus hne
  refine ⟨_, hreach.step (e := .report w) ?_ (?_ : _ = some { c with
    job := { c.job with
      master := m'
      tasks := Function.update c.job.tasks w none
      reports := c.job.reports ++ [task] }
    fs := fs', procs := Function.update c.procs w p, mapped }), hlt⟩
  · intro task' htask'
    rw [htask] at htask'
    cases htask'
    rw [hstatus]
    exact fun heq => hne (Option.some.inj heq)
  · simp only [Cluster.step, Function.update_self, if_pos hcode, Job.report, htask,
      Option.bind_eq_bind, Option.bind_some, hm']
    rfl

/-- A worker is given a task, executes it without being disturbed, and reports it. -/
theorem exists_executed {m' : Master} {reply : WorkerReply} {task : Task}
    (h : Live app s files nReduce c)
    (hidle : c.job.tasks w = none) (halloc : c.job.master.allocateTask = some (m', reply))
    (htask : reply.task = some task) (hwaiting : m'.status task = some .waiting)
    (hmissing : m'.missing = c.job.master.missing)
    (hruns : Runs app s (c.fs, app.start reply) (fs', p)) (hcode : p.code = []) :
    ∃ c', Reach (Cluster.step app s) Undisturbed c c' ∧
      c'.job.master.missing < c.job.master.missing := by
  have hjob : c.job.allocate w = some ({ c.job with
      master := m'
      tasks := Function.update c.job.tasks w reply.task
      timers := c.job.timers ++ reply.task.toList }, reply) := by
    simp only [Job.allocate, if_pos hidle, halloc, Option.bind_eq_bind, Option.bind_some]
    rfl
  have hstep : c.step app s (.allocate w) = some { c with
      job := { c.job with
        master := m'
        tasks := Function.update c.job.tasks w reply.task
        timers := c.job.timers ++ reply.task.toList }
      procs := Function.update c.procs w (app.start reply) } := by
    rw [Cluster.step, hjob]
    rfl
  rw [← Function.update_self w (app.start reply) c.procs] at hruns
  obtain ⟨c', hreach, hlt⟩ := (h.allocate hjob).exists_reported (w := w)
    ((Function.update_self ..).trans htask) hwaiting (by decide) hruns hcode
  exact ⟨c', (Reach.init.step (e := .allocate w) trivial hstep).trans hreach, hmissing ▸ hlt⟩

/-- The inputs of a reduce task of which none has been removed. -/
theorem ready (h : Live app s files nReduce c) (hleft : Left files c r files.length)
    (hmaps : c.job.master.mapfinished = files.length) :
    Ready c.fs files.length r fun i => app.share nReduce r (app.pairs files i) := by
  intro i hi
  have hfinished : c.job.master.status (.map i) = some .finished :=
    (h.sound.maps.iff i).2 (h.sound.maps.eq_iff.1 hmaps i hi)
  obtain ⟨file, hfile⟩ :=
    Option.isSome_iff_exists.1 (hleft.inputs i hi (Nat.le_add_left ..) hfinished)
  rw [hfile, h.right.right _ _ hfile]
  rfl

/-- The worker that has removed most inputs of its task finds the others. -/
theorem runs_removing {m : Nat} (h : Live app s files nReduce c) (hleft : Left files c r m)
    (hm : m < files.length) (htask : c.job.tasks w = some (.reduce r))
    (hlen : (c.procs w).code.length = m) :
    ∃ fs' p, Runs app s (c.fs, c.procs w) (fs', p) ∧ p.code = [] := by
  have hcode : (c.procs w).code = (((List.range files.length).drop (files.length - m)).map
      fun i => FileName.intermediate i r).map .remove := by
    have hsuffix := (h.reducing htask).suffix_of_le (hlen ▸ hm.le)
    rw [List.suffix_iff_eq_drop, length_removeCode, hlen, removeCode, ← List.map_drop] at hsuffix
    rw [hsuffix, List.map_map]
    rfl
  refine runs_removals ?_ ?_ hcode
  · refine ((List.drop_sublist _ _).nodup List.nodup_range).map fun i j heq => ?_
    exact (FileName.intermediate.inj heq).1
  · intro name hname
    obtain ⟨i, hi, rfl⟩ := List.mem_map.1 hname
    obtain ⟨k, hk, hik⟩ := List.mem_drop_iff_getElem.1 hi
    rw [List.length_range] at hk
    rw [List.getElem_range] at hik
    exact hleft.inputs i (by omega) (by omega) (h.mapsFinished w r htask i (by omega))

/-- As long as the job is not done, something can be reported. -/
theorem advance (h : Live app s files nReduce c) (htimers : c.job.timers = [])
    (hdone : ¬ c.job.master.done = true) :
    ∃ c', Reach (Cluster.step app s) Undisturbed c c' ∧
      c'.job.master.missing < c.job.master.missing := by
  have hwaiting : ∀ task, c.job.master.status task ≠ some .waiting := by
    intro task hw
    have hmem := h.timers task hw
    rw [htimers] at hmem
    cases hmem
  obtain ⟨w, hidle⟩ := h.idle
  have hidle := hidle w le_rfl
  rcases h.sound.maps.le.eq_or_lt with hmaps | hmaps
  · -- all map tasks are finished
    have hlt : c.job.master.reducefinished < nReduce := by
      refine lt_of_le_of_ne h.sound.reduces.le fun heq => hdone ?_
      rw [Master.done, decide_eq_true_eq, h.sound.nReduce_eq, heq]
    obtain ⟨r, hr⟩ := h.sound.reduces.exists_notAllocated hlt fun r => hwaiting (.reduce r)
    obtain ⟨hrlt, hlog⟩ := firstNotAllocated_spec hr
    have hstatus : c.job.master.status (.reduce r) = some .notAllocated := hlog
    obtain ⟨m, hleft⟩ := h.left r hrlt (by rw [hstatus]; decide)
    rcases hleft.le.eq_or_lt with rfl | hm
    · -- nobody has removed an input yet
      have halloc : c.job.master.allocateTask = some ({ c.job.master with
          reducetasklog := c.job.master.reducetasklog.set r .waiting },
            .reduce c.job.master.nMap r) := by
        have hphase : c.job.master.mapfinished = c.job.master.nMap ∧
            c.job.master.reducefinished < c.job.master.nReduce := by
          rw [h.sound.nMap_eq, h.sound.nReduce_eq]
          exact ⟨hmaps, hlt⟩
        have hnot : ¬ c.job.master.mapfinished < c.job.master.nMap := by
          rw [hphase.1]
          exact lt_irrefl _
        rw [← h.sound.nReduce_eq] at hr
        simp only [Master.allocateTask, if_neg hnot, if_pos hphase, hr]
      obtain ⟨fs', temp, hruns⟩ := exists_reduce_runs app s (h.ready hleft hmaps)
      rw [← h.sound.nMap_eq] at hruns
      refine h.exists_executed hidle halloc rfl ?_ rfl hruns rfl
      exact List.getElem?_set_self (List.getElem?_eq_some_iff.1 hlog).1
    · -- the worker that has removed most inputs goes on
      obtain ⟨w', htask, hlen⟩ := hleft.worker hm
      obtain ⟨fs', p, hruns, hcode⟩ := h.runs_removing hleft hm htask hlen
      exact h.exists_reported htask hstatus (by decide) hruns hcode
  · obtain ⟨i, hi⟩ := h.sound.maps.exists_notAllocated hmaps fun i => hwaiting (.map i)
    obtain ⟨hilt, hlog⟩ := firstNotAllocated_spec hi
    have hfile : c.job.master.files[i]? = some files[i] := by
      rw [h.sound.files_eq, List.getElem?_eq_getElem hilt]
    have halloc : c.job.master.allocateTask = some ({ c.job.master with
        maptasklog := c.job.master.maptasklog.set i .waiting },
          .map c.job.master.nReduce i files[i]) := by
      have hphase : c.job.master.mapfinished < c.job.master.nMap := h.sound.nMap_eq ▸ hmaps
      rw [← h.sound.nMap_eq] at hi
      simp only [Master.allocateTask, if_pos hphase, hi, hfile]
      rfl
    obtain ⟨temp, hruns⟩ := mapBranch_runs app s c.job.master.nReduce i files[i] c.fs
    refine h.exists_executed hidle halloc rfl ?_ rfl hruns rfl
    exact List.getElem?_set_self (List.getElem?_eq_some_iff.1 hlog).1

end Live

end

/-- **A job can be completed** from every state of a run that is not disturbed, and its output is
right. -/
theorem job_can_finish (app : App) (s : KeySort) (files : List GoString) (nReduce : Nat)
    {c : Cluster} (h : Reach (Cluster.step app s) Undisturbed (.init files nReduce) c) :
    ∃ c', Reach (Cluster.step app s) Undisturbed c c' ∧ c'.job.master.done ∧ ∀ r < nReduce,
      c'.fs (.output r) = some ((app.lines (s.sort ((app.share nReduce r
        (files.flatMap app.emitted)).map KeyValue.decoded))).map Line.record) := by
  have hlive : Live app s files nReduce c := (Live.init app s files nReduce).reach h
  have hadvance : ∀ c, Live app s files nReduce c → ¬ c.job.master.done = true →
      ∃ c', Reach (Cluster.step app s) Undisturbed c c' ∧ Live app s files nReduce c' ∧
        c'.job.master.missing < c.job.master.missing := by
    intro c hlive hdone
    obtain ⟨c₁, hreach, htimers, hmissing, hsame⟩ := hlive.exists_expired
    rw [← hsame] at hdone
    obtain ⟨c', hreach', hlt⟩ := (hlive.reach hreach).advance htimers hdone
    exact ⟨c', hreach.trans hreach', hlive.reach (hreach.trans hreach'), hmissing ▸ hlt⟩
  obtain ⟨c', hreach, hdone⟩ := Reach.exists_final _ hadvance hlive
  have hlive' := hlive.reach hreach
  refine ⟨c', hreach, hdone, fun r hr => hlive'.right.finished r ?_⟩
  rw [Master.done, decide_eq_true_eq, hlive'.sound.nReduce_eq,
    hlive'.sound.reduces.eq_iff] at hdone
  exact (hlive'.sound.reduces.iff r).2 (hdone r hr)

/-- Two workers are at the only reduce task, the second one because the first one is slow. The
first one removes the input, and the second one does not find it. -/
def twoReducers : List ClusterAction :=
  mapOne ++ [.allocate 0, .timeout 1, .allocate 1, .run 1, .run 1] ++ List.replicate 7 (.run 0)

/-- The job can still be completed then. -/
theorem job_can_finish_twoReducers :
    ∃ c, Reach (Cluster.step wordCount insertionSortByKey) Undisturbed (.init [[7]] 1) c ∧
      c.job.tasks 0 = some (.reduce 0) ∧ c.job.tasks 1 = some (.reduce 0) ∧
      c.fs (.intermediate 0 0) = none ∧ c.job.master.done = false ∧
      ∃ c', Reach (Cluster.step wordCount insertionSortByKey) Undisturbed c c' ∧
        c'.job.master.done ∧
        ∀ r < 1, c'.fs (.output r) = some ((wordCount.lines (insertionSortByKey.sort
          ((wordCount.share 1 r ([[7]].flatMap wordCount.emitted)).map KeyValue.decoded))).map
            Line.record) := by
  have hreach : Reach (Cluster.step wordCount insertionSortByKey) Undisturbed (.init [[7]] 1)
      (reached _ _ _ twoReducers) := reach_reached _
  exact ⟨_, hreach, by decide +kernel, by decide +kernel, by decide +kernel, by decide +kernel,
    job_can_finish wordCount insertionSortByKey [[7]] 1 hreach⟩

end DistLabs.Mr
