import DistLabs.Mr.Files

/-!
# The output of a job

Whatever crashes, times out, is executed twice or is handed out too early, no file of a job is ever
wrong: a map task that is executed again writes the same pairs, and a reduce task that misses an
input ends with `log.Fatalf` before it has written anything. So `mr-i-r` and `mr-out-r` hold what
`App.written` says whenever they exist, and `mr-out-r` exists once task `r` is recorded as finished
(`output_never_wrong`). With counters that are right, a job that is done has written what
`mrsequential` writes (`done_eq_sequential`), if the pairs are UTF-8.

`mrsequential` keeps the pairs in memory. A worker reads them from files, and what it reads is
`KeyValue.decoded` of what was written: pairs that are not UTF-8 do not come back as they were, and
two keys of different reduce tasks may become one. Every rename is taken to succeed, as in `Files`:
a reduce task whose output is not renamed would be recorded as finished without it.
-/

namespace DistLabs.Mr

open Lib

/-! ## What the files are to hold -/

section
variable (app : App) (s : KeySort) (files : List GoString) (nReduce : Nat)

/-- What a file holds if it exists. -/
def App.written : FileName → List Record
  | .intermediate i r => (app.share nReduce r (app.pairs files i)).map .pair
  | .output r => (app.lines (s.sort
      ((app.share nReduce r (files.flatMap app.emitted)).map KeyValue.decoded))).map Line.record

/-- No file holds anything else. -/
def Files.Right (fs : Files) : Prop :=
  ∀ name file, fs name = some file → file = app.written s files nReduce name

/-- What one operation may do to a file: write it as it is to be, or remove it if it is an input of
a reduce task. -/
def Files.Advances (fs fs' : Files) : Prop :=
  ∀ name, fs' name = fs name ∨ fs' name = some (app.written s files nReduce name) ∨
    fs' name = none ∧ ∀ r, name ≠ .output r

end

section
variable {app : App} {s : KeySort} {files : List GoString} {nReduce : Nat} {fs fs' : Files}

theorem Files.Advances.refl (fs : Files) : fs.Advances app s files nReduce fs := fun _ => .inl rfl

/-- A file is written as it is to be. -/
theorem Files.Advances.write (fs : Files) (name : FileName) :
    fs.Advances app s files nReduce
      (Function.update fs name (some (app.written s files nReduce name))) := by
  intro name'
  rw [Function.update_apply]
  split
  · next heq =>
    rw [heq]
    exact .inr (.inl rfl)
  · exact .inl rfl

/-- An input of a reduce task is removed. -/
theorem Files.Advances.remove (fs : Files) (i r : Nat) :
    fs.Advances app s files nReduce (Function.update fs (.intermediate i r) none) := by
  intro name'
  rw [Function.update_apply]
  split
  · next heq =>
    rw [heq]
    exact .inr (.inr ⟨rfl, fun _ => FileName.noConfusion⟩)
  · exact .inl rfl

/-- Files stay right. -/
theorem Files.Right.advances (h : fs.Right app s files nReduce)
    (hfs : fs.Advances app s files nReduce fs') :
    fs'.Right app s files nReduce := by
  intro name file hfile
  rcases hfs name with heq | heq | ⟨heq, -⟩
  · rw [heq] at hfile
    exact h name file hfile
  · rw [heq] at hfile
    exact (Option.some.inj hfile).symm
  · rw [heq] at hfile
    cases hfile

/-- An output stays. -/
theorem Files.Advances.output {r : Nat} (hfs : fs.Advances app s files nReduce fs')
    (h : fs (.output r) = some (app.written s files nReduce (.output r))) :
    fs' (.output r) = some (app.written s files nReduce (.output r)) := by
  rcases hfs (.output r) with heq | heq | ⟨-, hne⟩
  · rw [heq, h]
  · exact heq
  · exact absurd rfl (hne r)

end

/-! ## Workers at reduce tasks -/

/-- The operations that remove the inputs of a reduce task. -/
def removeCode (nMap reduceTaskNumber : Nat) : List Instr :=
  (List.range nMap).map fun i => Instr.remove (.intermediate i reduceTaskNumber)

section
variable (app : App) (s : KeySort) (files : List GoString) (nReduce : Nat)

/-- How far a worker is with reduce task `r`. It holds the right pairs, and then the right lines,
at any time. -/
inductive Reducing (fs : Files) (r : Nat) (p : Proc) : Prop where
  | loading (loaded rest : List Nat) (hrange : loaded ++ rest = List.range files.length)
      (hcode : p.code = rest.map (fun i => Instr.load (.intermediate i r)) ++
        .sort :: .create :: .print :: .rename (.output r) :: removeCode files.length r)
      (hpairs : p.intermediate = loaded.flatMap fun i =>
        (app.share nReduce r (app.pairs files i)).map KeyValue.decoded)
  | sorted (hcode : p.code = .create :: .print :: .rename (.output r) :: removeCode files.length r)
      (hpairs : p.intermediate =
        s.sort ((app.share nReduce r (files.flatMap app.emitted)).map KeyValue.decoded))
  | printing (hcode : p.code = .print :: .rename (.output r) :: removeCode files.length r)
      (hlines : p.temp ++ (app.lines p.intermediate).map Line.record =
        app.written s files nReduce (.output r))
  | printed (hcode : p.code = .rename (.output r) :: removeCode files.length r)
      (htemp : p.temp = app.written s files nReduce (.output r))
  | renamed (hcode : p.code <:+ removeCode files.length r)
      (hout : fs (.output r) = some (app.written s files nReduce (.output r)))

/-- A worker at a task, or without one. -/
def AtWork (fs : Files) (p : Proc) : Option Task → Prop
  | none => p.code = []
  | some (.map i) =>
    ∃ filename rest, files[i]? = some filename ∧ Mapping app nReduce i filename rest p
  | some (.reduce r) => Reducing app s files nReduce fs r p

end

section
variable {app : App} {s : KeySort} {files : List GoString} {nReduce : Nat}
  {fs fs' : Files} {r : Nat}
  {p p' : Proc} {task : Option Task}

/-- A worker starts with the first input. -/
theorem Reducing.start (app : App) (s : KeySort) (files : List GoString) (nReduce : Nat)
    (fs : Files) (r : Nat) :
    Reducing app s files nReduce fs r (app.start (.reduce files.length r)) := by
  refine .loading [] (List.range files.length) rfl ?_ rfl
  simp [App.start, reduceCode, removeCode]

/-- A worker that has nothing left to do has renamed its output. -/
theorem Reducing.output (h : Reducing app s files nReduce fs r p) (hcode : p.code = []) :
    fs (.output r) = some (app.written s files nReduce (.output r)) := by
  cases h with
  | loading _ rest _ h =>
    rw [hcode] at h
    cases rest <;> cases h
  | sorted h | printing h | printed h =>
    rw [hcode] at h
    cases h
  | renamed _ hout => exact hout

/-- What others do to the files does not matter to a worker at a reduce task. -/
theorem Reducing.advances (h : Reducing app s files nReduce fs r p)
    (hfs : fs.Advances app s files nReduce fs') : Reducing app s files nReduce fs' r p := by
  cases h with
  | loading loaded rest hrange hcode hpairs => exact .loading loaded rest hrange hcode hpairs
  | sorted hcode hpairs => exact .sorted hcode hpairs
  | printing hcode hlines => exact .printing hcode hlines
  | printed hcode htemp => exact .printed hcode htemp
  | renamed hcode hout => exact .renamed hcode (hfs.output hout)

/-- An iteration of the loop over the distinct keys. -/
theorem lines_cons (app : App) (kv : KeyValue) (rest : List KeyValue) :
    app.lines (kv :: rest) = app.line (kv.key, kv :: rest.takeWhile (·.key = kv.key)) ::
      app.lines (rest.dropWhile (·.key = kv.key)) := by
  rw [App.lines, runs]
  rfl

/-- An operation at a reduce task. The inputs that it finds are complete, and it needs all of
them. -/
theorem Reducing.step (h : Reducing app s files nReduce fs r p)
    (hright : fs.Right app s files nReduce)
    (hcode : p.code ≠ []) (hstep : p.step app s fs = some (fs', p')) :
    fs.Advances app s files nReduce fs' ∧ Reducing app s files nReduce fs' r p' := by
  cases h with
  | loading loaded rest hrange h hpairs =>
    cases rest with
    | nil =>
      simp only [Proc.step, h, List.map_nil, List.nil_append] at hstep
      cases hstep
      refine ⟨.refl _, .sorted rfl ?_⟩
      rw [List.append_nil] at hrange
      rw [hpairs, hrange, ← flatMap_share, List.map_flatMap]
    | cons i rest =>
      simp only [Proc.step, h, List.map_cons, List.cons_append] at hstep
      obtain ⟨file, hfile, heq⟩ := Option.bind_eq_some_iff.1 hstep
      cases heq
      refine ⟨.refl _, .loading (loaded ++ [i]) rest (by simpa using hrange) rfl ?_⟩
      rw [hright _ _ hfile, App.written, readAll_map, hpairs, List.flatMap_append,
        List.flatMap_singleton]
  | sorted h hpairs =>
    simp only [Proc.step, h] at hstep
    cases hstep
    refine ⟨.refl _, .printing rfl ?_⟩
    rw [hpairs, List.nil_append]
    rfl
  | printing h hlines =>
    simp only [Proc.step, h] at hstep
    split at hstep
    · next hnil =>
      cases hstep
      refine ⟨.refl _, .printed rfl ?_⟩
      rw [← hlines, hnil, App.lines, runs, List.map_nil, List.map_nil, List.append_nil]
    · next kv rest hcons =>
      cases hstep
      refine ⟨.refl _, .printing rfl ?_⟩
      rw [← hlines, hcons, lines_cons, List.map_cons, List.append_assoc]
      rfl
  | printed h htemp =>
    simp only [Proc.step, h] at hstep
    cases hstep
    rw [htemp]
    exact ⟨.write _ _, .renamed (List.suffix_refl _) (Function.update_self ..)⟩
  | renamed hsuffix hout =>
    obtain ⟨instr, code, h⟩ := List.exists_cons_of_ne_nil hcode
    have hmem : instr ∈ removeCode files.length r := hsuffix.subset (h ▸ List.mem_cons_self)
    obtain ⟨i, -, rfl⟩ := List.mem_map.1 hmem
    simp only [Proc.step, h, Option.ite_none_right_eq_some] at hstep
    obtain ⟨-, heq⟩ := hstep
    cases heq
    have hadv : fs.Advances app s files nReduce _ := .remove fs i r
    rw [h] at hsuffix
    exact ⟨hadv, .renamed ((List.suffix_cons _ _).trans hsuffix) (hadv.output hout)⟩

/-- What others do to the files does not matter to a worker. -/
theorem AtWork.advances (h : AtWork app s files nReduce fs p task)
    (hfs : fs.Advances app s files nReduce fs') : AtWork app s files nReduce fs' p task := by
  match task, h with
  | none, h | some (.map _), h => exact h
  | some (.reduce _), h => exact Reducing.advances h hfs

/-- An operation at any task. -/
theorem AtWork.step (h : AtWork app s files nReduce fs p task)
    (hright : fs.Right app s files nReduce)
    (hcode : p.code ≠ []) (hstep : p.step app s fs = some (fs', p')) :
    fs.Advances app s files nReduce fs' ∧ AtWork app s files nReduce fs' p' task := by
  match task, h with
  | none, h => exact absurd h hcode
  | some (.reduce _), h => exact Reducing.step h hright hcode hstep
  | some (.map i), ⟨filename, rest, hfile, hmapping⟩ =>
    rcases hmapping.step hcode hstep with ⟨rfl, hmapping'⟩ | ⟨r, rest', -, hmapping', rfl⟩
    · exact ⟨.refl _, filename, rest, hfile, hmapping'⟩
    · have hpairs : app.emitted filename = app.pairs files i := by
        rw [App.pairs, hfile]
        rfl
      rw [hpairs]
      exact ⟨.write fs (.intermediate i r), filename, rest', hfile, hmapping'⟩

/-- If one worker has a new task and a new state, then only that one has to be looked at. -/
theorem AtWork.update {tasks : Nat → Option Task} {procs : Nat → Proc} {w : Nat}
    (h : ∀ w, AtWork app s files nReduce fs (procs w) (tasks w))
    (hw : AtWork app s files nReduce fs p task) (w' : Nat) :
    AtWork app s files nReduce fs (Function.update procs w p w')
      (Function.update tasks w task w') := by
  rcases eq_or_ne w' w with rfl | hne
  · rw [Function.update_self, Function.update_self]
    exact hw
  · rw [Function.update_of_ne hne, Function.update_of_ne hne]
    exact h w'

end

/-! ## Runs -/

/-- What holds in every state of every run. -/
structure Cluster.Right (app : App) (s : KeySort) (files : List GoString) (nReduce : Nat)
    (c : Cluster) : Prop where
  files_eq : c.job.master.files = files
  nMap_eq : c.job.master.nMap = files.length
  nReduce_eq : c.job.master.nReduce = nReduce
  right : c.fs.Right app s files nReduce
  workers : ∀ w, AtWork app s files nReduce c.fs (c.procs w) (c.job.tasks w)
  finished : ∀ r, c.job.master.status (.reduce r) = some .finished →
    c.fs (.output r) = some (app.written s files nReduce (.output r))

namespace Cluster.Right

variable {app : App} {s : KeySort} {files : List GoString} {nReduce w : Nat} {c c' : Cluster}

theorem init (app : App) (s : KeySort) (files : List GoString) (nReduce : Nat) :
    Cluster.Right app s files nReduce (.init files nReduce) where
  files_eq := rfl
  nMap_eq := rfl
  nReduce_eq := rfl
  right _ _ h := by cases h
  workers _ := rfl
  finished r h := by
    have hlog : (List.replicate nReduce TaskStatus.notAllocated)[r]? = some .finished := h
    rw [List.getElem?_replicate] at hlog
    split at hlog <;> cases hlog

/-- The coordinator goes on. The reduce task that is reported, if there is one, has its output. -/
theorem later {job : Job} {procs : Nat → Proc} {reported : Option Task}
    (h : c.Right app s files nReduce) (hlater : c.job.master.Later job.master reported)
    (hreported : ∀ r, .reduce r ∈ reported →
      c.fs (.output r) = some (app.written s files nReduce (.output r)))
    (hworkers : ∀ w, AtWork app s files nReduce c.fs (procs w) (job.tasks w)) :
    Cluster.Right app s files nReduce { c with job, procs } where
  files_eq := hlater.files_eq.trans h.files_eq
  nMap_eq := hlater.nMap_eq.trans h.nMap_eq
  nReduce_eq := hlater.nReduce_eq.trans h.nReduce_eq
  right := h.right
  workers := hworkers
  finished r hr := by
    rcases (hlater.finished_iff _).1 hr with hold | hnew
    · exact h.finished r hold
    · exact hreported r hnew

/-- A worker starts with a task. -/
theorem start {m : Master} {reply : WorkerReply} (h : c.Right app s files nReduce)
    (halloc : Allocated c.job.master m reply) :
    AtWork app s files nReduce c.fs (app.start reply) reply.task := by
  cases halloc with
  | waiting | jobFinished => rfl
  | @map i filename _ hfile =>
    rw [h.files_eq] at hfile
    refine ⟨filename, List.range nReduce, hfile, .inl ?_⟩
    rw [← h.nReduce_eq]
    exact mapCode_eq ..
  | reduce =>
    rw [h.nMap_eq]
    exact .start ..

theorem crash (h : c.Right app s files nReduce) (w : Nat) :
    (c.crash w).Right app s files nReduce :=
  h.later (.refl _) (fun r hr => by cases hr) (AtWork.update h.workers rfl)

/-- Every step keeps the files right. -/
theorem step {a : ClusterAction} (h : c.Right app s files nReduce)
    (hstep : c.step app s a = some c') : c'.Right app s files nReduce := by
  cases Cluster.stepped_of_step hstep with
  | allocate halloc =>
    obtain ⟨-, hm, htasks, -⟩ := Job.allocate_cases halloc
    refine h.later (Master.Later.of_allocated hm) (fun r hr => by cases hr) ?_
    rw [htasks]
    exact AtWork.update h.workers (h.start hm)
  | @run w fs p hcode hrun =>
    obtain ⟨hfs, hat⟩ := (h.workers w).step h.right hcode hrun
    refine { h with
      right := h.right.advances hfs
      workers := ?_
      finished := fun r hr => hfs.output (h.finished r hr) }
    rw [← Function.update_eq_self w c.job.tasks]
    exact AtWork.update (fun w' => (h.workers w').advances hfs) hat
  | fail | crash => exact h.crash _
  | @report w job hcode hreport =>
    obtain ⟨task, htask, hm, htasks, -⟩ := Job.report_cases hreport
    refine h.later (Master.Later.of_receiveFinished hm) (fun r hr => ?_) ?_
    · cases hr
      have hat := h.workers w
      rw [htask] at hat
      exact Reducing.output hat hcode
    · rw [htasks, ← Function.update_eq_self w c.procs]
      exact AtWork.update h.workers hcode
  | timeout htimeout =>
    obtain ⟨task, hm, htasks, -⟩ := Job.timeout_cases htimeout
    refine h.later (hm ▸ Master.Later.of_expire _ task) (fun r hr => by cases hr) ?_
    rw [htasks]
    exact h.workers

/-- In every reachable state the files are right. -/
theorem reach {ok : Cluster → ClusterAction → Prop}
    (h : Reach (Cluster.step app s) ok (.init files nReduce) c) : c.Right app s files nReduce :=
  h.invariant (P := Cluster.Right app s files nReduce) (.init app s files nReduce)
    fun hs _ he => hs.step he

end Cluster.Right

/-! ## The output -/

/-- No task is reported that is recorded as finished. -/
def CountedOnce (c : Cluster) : ClusterAction → Prop
  | .report w => ReportedOnce c.job (.report w)
  | _ => True

instance decidableCountedOnce (c : Cluster) : DecidablePred (CountedOnce c)
  | .report w => inferInstanceAs (Decidable (ReportedOnce c.job (.report w)))
  | .allocate _ | .run _ | .crash _ | .timeout _ => isTrue trivial

section
variable {app : App} {s : KeySort} {files : List GoString} {nReduce : Nat} {c : Cluster}

/-- The counters are right. -/
theorem Cluster.step_sound {c' : Cluster} {a : ClusterAction}
    (h : c.job.master.Sound files nReduce c.job.reports) (honce : CountedOnce c a)
    (hstep : c.step app s a = some c') : c'.job.master.Sound files nReduce c'.job.reports := by
  cases Cluster.stepped_of_step hstep with
  | @allocate w job reply halloc =>
    exact Job.step_sound (a := .allocate w) h trivial (by rw [Job.step, halloc]; rfl)
  | run => exact h
  | @fail w => exact Job.step_sound (a := .crash w) h trivial rfl
  | @crash w => exact Job.step_sound (a := .crash w) h trivial rfl
  | @report w job _ hreport => exact Job.step_sound (a := .report w) h honce hreport
  | @timeout k job htimeout => exact Job.step_sound (a := .timeout k) h trivial htimeout

/-- In every run that counts every task once the counters are right. -/
theorem Cluster.reach_sound (h : Reach (Cluster.step app s) CountedOnce (.init files nReduce) c) :
    c.job.master.Sound files nReduce c.job.reports :=
  h.invariant (P := fun c => c.job.master.Sound files nReduce c.job.reports) (.init files nReduce)
    fun hs hok he => Cluster.step_sound hs hok he

/-- The outputs of all reduce tasks together, if the pairs are UTF-8. -/
theorem written_perm (happ : app.OrderInsensitive) (hpos : 0 < nReduce)
    (hvalid : ∀ kv ∈ files.flatMap app.emitted, kv.Valid) (s s' : KeySort) :
    ((List.range nReduce).flatMap fun r => app.written s files nReduce (.output r)).Perm
      (app.mrsequential s' files) := by
  have hseq : app.mrsequential s' files =
      (app.lines (s'.sort (files.flatMap app.emitted))).map Line.record := by
    rw [App.mrsequential, List.flatMap_eq_foldl]
  have hwritten : ∀ r, app.written s files nReduce (.output r) =
      (app.lines (s.sort (app.share nReduce r (files.flatMap app.emitted)))).map Line.record := by
    intro r
    rw [App.written, map_decoded fun kv hkv => hvalid kv (mem_share.1 hkv).1]
  have hlines := (flatMap_lines_perm happ hpos (fun _ => s) s' (files.flatMap app.emitted)).map
    Line.record
  rw [List.map_flatMap] at hlines
  simp only [hwritten, hseq]
  exact hlines

end

/-- **No output is ever wrong**, in any run: `mr-out-r`, if it exists, has the lines of all pairs
that hash to `r`, as they are decoded, each key with all its values, and it exists once the task is
recorded as finished. -/
theorem output_never_wrong (app : App) (s : KeySort) (files : List GoString) (nReduce : Nat)
    {c : Cluster} (h : Reach (Cluster.step app s) Always (.init files nReduce) c) (r : Nat) :
    (c.fs (.output r) = none ∨ c.fs (.output r) = some ((app.lines (s.sort
      ((app.share nReduce r (files.flatMap app.emitted)).map KeyValue.decoded))).map
        Line.record)) ∧
    (c.job.master.reducetasklog[r]? = some .finished → (c.fs (.output r)).isSome) := by
  have hright := Cluster.Right.reach h
  refine ⟨?_, fun hfinished => ?_⟩
  · cases hfile : c.fs (.output r) with
    | none => exact .inl rfl
    | some file =>
      rw [hright.right _ _ hfile]
      exact .inr rfl
  · rw [hright.finished r hfinished]
    rfl

/-- A map task is reported twice, and a reduce task is handed out while the other map task is
missing. The worker finds no input. -/
def handedOutEarly : List ClusterAction :=
  [.allocate 0, .timeout 0, .allocate 1, .run 0, .run 0, .run 0, .run 1, .run 1, .run 1, .report 0,
    .report 1, .allocate 0, .run 0, .run 0]

/-- Nothing is written then. -/
theorem output_never_wrong_early :
    ∃ c, Reach (Cluster.step wordCount insertionSortByKey) Always (.init [[7], [8]] 1) c ∧
      Task.map 1 ∉ c.job.reports ∧ c.job.master.reducetasklog[0]? = some .waiting ∧
      (c.fs (.output 0) = none ∨ c.fs (.output 0) = some ((wordCount.lines (insertionSortByKey.sort
        ((wordCount.share 1 0 ([[7], [8]].flatMap wordCount.emitted)).map KeyValue.decoded))).map
          Line.record)) ∧
      (c.job.master.reducetasklog[0]? = some .finished → (c.fs (.output 0)).isSome) :=
  ⟨_, reach_reached handedOutEarly, by decide +kernel, by decide +kernel,
    output_never_wrong wordCount insertionSortByKey [[7], [8]] 1 (reach_reached handedOutEarly) 0⟩

/-- **A job that is done has written what `mrsequential` writes**, whatever has crashed or timed
out, if the pairs are UTF-8, and as long as no task is reported again after it was recorded as
finished. -/
theorem done_eq_sequential (app : App) (happ : app.OrderInsensitive) (s s' : KeySort)
    (files : List GoString) (hvalid : ∀ kv ∈ files.flatMap app.emitted, kv.Valid)
    (nReduce : Nat) (hpos : 0 < nReduce) {c : Cluster}
    (h : Reach (Cluster.step app s) CountedOnce (.init files nReduce) c)
    (hdone : c.job.master.done) :
    (∀ r < nReduce, (c.fs (.output r)).isSome) ∧
      ((List.range nReduce).flatMap fun r => (c.fs (.output r)).getD []).Perm
        (app.mrsequential s' files) := by
  have hright := Cluster.Right.reach h
  have hsound := Cluster.reach_sound h
  have hall : ∀ r < nReduce,
      c.fs (.output r) = some (app.written s files nReduce (.output r)) := by
    intro r hr
    rw [Master.done, decide_eq_true_eq, hsound.nReduce_eq, hsound.reduces.eq_iff] at hdone
    exact hright.finished r ((hsound.reduces.iff r).2 (hdone r hr))
  refine ⟨fun r hr => by rw [hall r hr]; rfl, ?_⟩
  refine List.Perm.trans (List.Perm.of_eq (List.flatMap_congr fun r hr => ?_))
    (written_perm happ hpos hvalid s s')
  rw [hall r (List.mem_range.1 hr)]
  rfl

/-- A worker crashes while it maps, and another one while it reduces. Both tasks are given out
again. -/
def crashes : List ClusterAction :=
  [.allocate 0, .run 0, .run 0, .crash 0, .timeout 0, .allocate 1, .run 1, .run 1, .run 1,
      .report 1] ++
    [.allocate 0, .run 0, .run 0, .run 0, .crash 0, .timeout 1, .allocate 1] ++
    List.replicate 7 (.run 1) ++ [.report 1]

/-- The job is done, and its output is the one that `mrsequential` writes. -/
theorem done_eq_sequential_crashes :
    (∀ kv ∈ [[7]].flatMap wordCount.emitted, kv.Valid) ∧
    ∃ c, Reach (Cluster.step wordCount insertionSortByKey) CountedOnce (.init [[7]] 1) c ∧
      (∀ r < 1, (c.fs (.output r)).isSome) ∧
      ((List.range 1).flatMap fun r => (c.fs (.output r)).getD []).Perm
        (wordCount.mrsequential insertionSortByKey [[7]]) :=
  ⟨by decide +kernel, _, reach_reached crashes, done_eq_sequential wordCount
    wordCount_orderInsensitive insertionSortByKey insertionSortByKey [[7]] (by decide +kernel) 1
    (by decide) (reach_reached crashes) (by decide +kernel)⟩

/-- The words `ff` and `fe` are not UTF-8. One worker maps them and reduces both tasks. -/
def invalidWords : List ClusterAction :=
  .allocate 0 :: List.replicate 6 (.run 0) ++ .report 0 :: .allocate 0 ::
    List.replicate 7 (.run 0) ++ .report 0 :: .allocate 0 ::
    List.replicate 7 (.run 0) ++ [.report 0]

/-- Both outputs have a line for U+FFFD, which no output of `mrsequential` has. -/
example :
    let c := reached (Cluster.step wordCount insertionSortByKey) CountedOnce
      (.init [[0xFF, 0xFE]] 2) invalidWords
    c.job.master.done ∧ (∀ r < 2, c.fs (.output r) = some [.text (runeError ++ [32, 1, 10])]) ∧
      wordCount.mrsequential insertionSortByKey [[0xFF, 0xFE]] =
        [.text [0xFE, 32, 1, 10], .text [0xFF, 32, 1, 10]] := by decide +kernel

end DistLabs.Mr
