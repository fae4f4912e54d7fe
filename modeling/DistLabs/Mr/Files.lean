import DistLabs.Lib.Utf8
import DistLabs.Mr.Coordinator
import DistLabs.Mr.Worker

/-!
# The files of a job, step by step

Workers run the branches of `Worker` one file operation at a time (`Proc.step`), while the
coordinator gives out tasks and gives them out again, and any worker may crash between any two
operations. A map task writes to a temporary file and renames it, so that `mr-i-r` is complete
whenever it exists. A reduce task removes its inputs before it reports: if it crashes in between,
or while it does so, the task is allocated again and cannot be executed (`removed_before_report`).
As long as no input of `r` is removed before `r` is recorded as finished (`KeepsInputs`), all of
them are there (`inputs_intact`).

Two things about the libraries matter here. `json` does not keep bytes that are not UTF-8: a reduce
task reads the pairs as `KeyValue.decoded` says. On pairs that are UTF-8 decoding inverts encoding,
and only there a worker does what `App.reduceBranch` does (`reduceBranch_runs`). And `Worker`
ignores the error of `os.Rename`: every rename is taken to succeed, and so is the creation of a
temporary file and every write to it.
-/

namespace DistLabs.Mr

open Lib

/-! ## Workers -/

/-- The operations of a worker on its files and its variables. -/
inductive Instr where
  /-- Open `mr-i-r` and append what is in it to `intermediate`. -/
  | load (name : FileName)
  | sort
  /-- `ioutil.TempFile`. -/
  | create
  | encode (kv : KeyValue)
  /-- The loop over the distinct keys of `intermediate`. -/
  | print
  | rename (name : FileName)
  | remove (name : FileName)
  deriving DecidableEq

/-- A worker with what is left of its branch. Nobody else knows its temporary file. -/
structure Proc where
  code : List Instr := []
  intermediate : List KeyValue := []
  temp : List Record := []
  deriving DecidableEq

/-- What `dec.Decode` gives back of a pair that `enc.Encode` has written. -/
def KeyValue.decoded (kv : KeyValue) : KeyValue := ⟨coerceUtf8 kv.key, coerceUtf8 kv.value⟩

/-- The key and the value are UTF-8. -/
def KeyValue.Valid (kv : KeyValue) : Prop := validString kv.key ∧ validString kv.value

instance KeyValue.decidableValid : DecidablePred KeyValue.Valid := fun _ =>
  inferInstanceAs (Decidable (_ ∧ _))

/-- Decoding inverts encoding on pairs that are UTF-8. -/
theorem KeyValue.decoded_of_valid {kv : KeyValue} (h : kv.Valid) : kv.decoded = kv := by
  rw [KeyValue.decoded, coerceUtf8_of_valid h.1, coerceUtf8_of_valid h.2]

/-- Pairs that are UTF-8 are decoded as they were. -/
theorem map_decoded {l : List KeyValue} (h : ∀ kv ∈ l, kv.Valid) :
    l.map KeyValue.decoded = l := by
  conv_rhs => rw [← List.map_id l]
  exact List.map_congr_left fun kv hkv => KeyValue.decoded_of_valid (h kv hkv)

/-- The branch for a map task. -/
def App.mapCode (app : App) (nReduce mapTaskNumber : Nat) (filename : GoString) : List Instr :=
  (app.buckets nReduce (app.emitted filename)).zipIdx.flatMap fun b =>
    .create :: (b.1.map .encode ++ [.rename (.intermediate mapTaskNumber b.2)])

/-- The branch for a reduce task. -/
def reduceCode (nMap reduceTaskNumber : Nat) : List Instr :=
  (List.range nMap).map (fun i => Instr.load (.intermediate i reduceTaskNumber)) ++
    [Instr.sort, .create, .print, .rename (.output reduceTaskNumber)] ++
    (List.range nMap).map fun i => Instr.remove (.intermediate i reduceTaskNumber)

/-- A worker that has got a reply. -/
def App.start (app : App) : WorkerReply → Proc
  | .map nReduce mapTaskNumber filename => { code := app.mapCode nReduce mapTaskNumber filename }
  | .reduce nMap reduceTaskNumber => { code := reduceCode nMap reduceTaskNumber }
  | .waiting | .jobFinished => {}

/-- The next operation of a worker. `none` is `log.Fatalf`. A rename succeeds. -/
def Proc.step (app : App) (s : KeySort) (fs : Files) (p : Proc) : Option (Files × Proc) :=
  match p.code with
  | [] => some (fs, p)
  | .load name :: code => do
    let file ← fs name
    return (fs, { p with
      code
      intermediate := p.intermediate ++ (App.readAll file).map KeyValue.decoded })
  | .sort :: code => some (fs, { p with code, intermediate := s.sort p.intermediate })
  | .create :: code => some (fs, { p with code, temp := [] })
  | .encode kv :: code => some (fs, { p with code, temp := p.temp ++ [.pair kv] })
  | .print :: code =>
    match p.intermediate with
    | [] => some (fs, { p with code })
    | kv :: rest =>
      let run := (kv.key, kv :: rest.takeWhile (·.key = kv.key))
      some (fs, { p with
        intermediate := rest.dropWhile (·.key = kv.key)
        temp := p.temp ++ [(app.line run).record] })
  | .rename name :: code => some (Function.update fs name (some p.temp), { p with code })
  | .remove name :: code =>
    if (fs name).isSome then some (Function.update fs name none, { p with code }) else none

/-! ## A worker alone -/

section
variable {app : App} {s : KeySort} {fs fs' : Files} {code : List Instr} {l : List KeyValue}
  {temp : List Record}

/-- Any number of operations of one worker, with nobody else at the files. -/
def Runs (app : App) (s : KeySort) : Files × Proc → Files × Proc → Prop :=
  Relation.ReflTransGen fun x y => x.2.code ≠ [] ∧ x.2.step app s x.1 = some y

theorem Runs.cons {instr : Instr} {y z : Files × Proc}
    (hstep : Proc.step app s fs ⟨instr :: code, l, temp⟩ = some y) (h : Runs app s y z) :
    Runs app s (fs, ⟨instr :: code, l, temp⟩) z :=
  .head ⟨List.cons_ne_nil _ _, hstep⟩ h

theorem Runs.trans {x y z : Files × Proc} (h : Runs app s x y) (h' : Runs app s y z) :
    Runs app s x z :=
  Relation.ReflTransGen.trans h h'

/-- The loop that encodes pairs. -/
theorem runs_encode (kvs : List KeyValue) : Runs app s (fs, ⟨kvs.map .encode ++ code, l, temp⟩)
    (fs, ⟨code, l, temp ++ kvs.map .pair⟩) := by
  induction kvs generalizing temp with
  | nil =>
    rw [List.map_nil, List.map_nil, List.append_nil]
    exact .refl
  | cons kv kvs ih =>
    refine .cons rfl ?_
    have hrest : Runs app s (fs, ⟨kvs.map .encode ++ code, l, temp ++ [.pair kv]⟩) _ := ih
    rwa [List.append_assoc] at hrest

/-- The loop over the inputs of a reduce task. -/
theorem runs_load (names : List FileName) (l' : List KeyValue)
    (hread : names.foldlM (fun intermediate name => do
      let file ← fs name
      return intermediate ++ (App.readAll file).map KeyValue.decoded) l = some l') :
    Runs app s (fs, ⟨names.map .load ++ code, l, temp⟩) (fs, ⟨code, l', temp⟩) := by
  induction names generalizing l with
  | nil =>
    cases hread
    exact .refl
  | cons name names ih =>
    rw [List.foldlM_cons] at hread
    simp only [Option.bind_eq_bind, Option.bind_eq_some_iff] at hread
    obtain ⟨_, ⟨file, hfile, hacc⟩, hread⟩ := hread
    cases hacc
    refine .cons (y := (fs, ⟨names.map .load ++ code,
      l ++ (App.readAll file).map KeyValue.decoded, temp⟩)) ?_ (ih hread)
    simp only [Proc.step, hfile]
    rfl

/-- The loop over the distinct keys prints the lines of `lines`. -/
theorem runs_print : Runs app s (fs, ⟨.print :: code, l, temp⟩)
    (fs, ⟨code, [], temp ++ (app.lines l).map Line.record⟩) := by
  induction hn : l.length using Nat.strongRecOn generalizing l temp with
  | ind n ih =>
    cases l with
    | nil =>
      refine .cons (y := (fs, ⟨code, [], temp⟩)) rfl ?_
      rw [App.lines, runs, List.map_nil, List.map_nil, List.append_nil]
      exact .refl
    | cons kv rest =>
      refine .cons rfl ?_
      have hlt : (rest.dropWhile (·.key = kv.key)).length < n := by
        rw [← hn, List.length_cons]
        exact Nat.lt_succ_of_le (List.dropWhile_sublist _).length_le
      have hrest : Runs app s (fs, ⟨.print :: code, rest.dropWhile (·.key = kv.key), temp ++
          [(app.line (kv.key, kv :: rest.takeWhile (·.key = kv.key))).record]⟩) _ := ih _ hlt rfl
      rw [List.append_assoc] at hrest
      rw [App.lines, runs]
      exact hrest

/-- The loop that removes the inputs. -/
theorem runs_remove (names : List FileName)
    (hremove : names.foldlM (fun (fs : Files) name =>
      if (fs name).isSome then some (Function.update fs name none) else none) fs = some fs') :
    Runs app s (fs, ⟨names.map .remove ++ code, l, temp⟩) (fs', ⟨code, l, temp⟩) := by
  induction names generalizing fs with
  | nil =>
    cases hremove
    exact .refl
  | cons name names ih =>
    rw [List.foldlM_cons] at hremove
    simp only [Option.bind_eq_bind, Option.bind_eq_some_iff, Option.ite_none_right_eq_some]
      at hremove
    obtain ⟨fs₁, ⟨hsome, hfs₁⟩, hremove⟩ := hremove
    cases hfs₁
    refine .cons (y := (_, ⟨names.map .remove ++ code, l, temp⟩)) ?_ (ih hremove)
    simp only [Proc.step, hsome, if_true]
    rfl

/-- **A worker at a map task** that is left alone does what `mapBranch` does. -/
theorem mapBranch_runs (app : App) (s : KeySort) (nReduce i : Nat) (filename : GoString)
    (fs : Files) :
    ∃ temp, Runs app s (fs, app.start (.map nReduce i filename))
      (app.mapBranch nReduce i filename fs, ⟨[], [], temp⟩) := by
  have hrun : ∀ (bs : List (List KeyValue × Nat)) (fs : Files) (temp : List Record), ∃ temp',
      Runs app s (fs, ⟨bs.flatMap fun b =>
        .create :: (b.1.map .encode ++ [.rename (.intermediate i b.2)]), [], temp⟩)
        (bs.foldl (fun fs b =>
          Function.update fs (.intermediate i b.2) (some (b.1.map .pair))) fs,
            ⟨[], [], temp'⟩) := by
    intro bs
    induction bs with
    | nil => exact fun fs temp => ⟨temp, .refl⟩
    | cons b bs ih =>
      intro fs temp
      obtain ⟨temp', hrest⟩ := ih (Function.update fs (.intermediate i b.2) (some (b.1.map .pair)))
        (b.1.map .pair)
      refine ⟨temp', ?_⟩
      rw [List.flatMap_cons, List.cons_append, List.append_assoc]
      exact .cons rfl ((runs_encode b.1).trans (.cons rfl hrest))
  exact hrun _ fs []

/-- A worker at a reduce task that is left alone reads its inputs, writes its output and removes
its inputs. -/
theorem reduce_runs (app : App) (s : KeySort) {nMap r : Nat} {l : List KeyValue}
    (hread : (List.range nMap).foldlM (fun intermediate i => do
      let file ← fs (.intermediate i r)
      return intermediate ++ (App.readAll file).map KeyValue.decoded) [] = some l)
    (hremove : (List.range nMap).foldlM (fun (fs : Files) i =>
        if (fs (.intermediate i r)).isSome then some (Function.update fs (.intermediate i r) none)
        else none)
      (Function.update fs (.output r) (some ((app.lines (s.sort l)).map Line.record))) =
        some fs') :
    ∃ temp, Runs app s (fs, app.start (.reduce nMap r)) (fs', ⟨[], [], temp⟩) := by
  have hcode : reduceCode nMap r =
      ((List.range nMap).map fun i => FileName.intermediate i r).map Instr.load ++
        (Instr.sort :: .create :: .print :: .rename (.output r) ::
          (((List.range nMap).map fun i => FileName.intermediate i r).map Instr.remove ++
            [])) := by
    simp [reduceCode, Function.comp_def]
  refine ⟨(app.lines (s.sort l)).map Line.record, ?_⟩
  rw [App.start, hcode]
  refine (runs_load _ l (by rwa [List.foldlM_map])).trans (.cons rfl (.cons rfl ?_))
  refine runs_print.trans (.cons rfl (runs_remove _ ?_))
  rw [List.foldlM_map]
  exact hremove

variable {nMap r : Nat} {pairs : Nat → List KeyValue}

/-- A worker at a reduce task that finds its inputs gets to the end of its branch. -/
theorem exists_reduce_runs (app : App) (s : KeySort) (h : Ready fs nMap r pairs) :
    ∃ fs' temp, Runs app s (fs, app.start (.reduce nMap r)) (fs', ⟨[], [], temp⟩) := by
  obtain ⟨fs', hremove, -⟩ := foldlM_remove fun i hi => Ready.isSome_update h (some _) hi
  obtain ⟨temp, hruns⟩ := reduce_runs app s (foldlM_read (List.map KeyValue.decoded) h) hremove
  exact ⟨fs', temp, hruns⟩

/-- **A worker at a reduce task** that is left alone does what `reduceBranch` does, if the pairs
that it reads are UTF-8. -/
theorem reduceBranch_runs (app : App) (s : KeySort) (hready : Ready fs nMap r pairs)
    (hvalid : ∀ i < nMap, ∀ kv ∈ pairs i, kv.Valid) (h : app.reduceBranch s nMap r fs = some fs') :
    ∃ temp, Runs app s (fs, app.start (.reduce nMap r)) (fs', ⟨[], [], temp⟩) := by
  simp only [App.reduceBranch, Option.bind_eq_bind, Option.bind_eq_some_iff] at h
  obtain ⟨l, hread, hremove⟩ := h
  have hl : l = (List.range nMap).flatMap pairs :=
    Option.some.inj (hread.symm.trans (foldlM_read id hready))
  have hdecoded : ((List.range nMap).flatMap fun i => (pairs i).map KeyValue.decoded) = l := by
    rw [hl]
    exact List.flatMap_congr fun i hi => map_decoded (hvalid i (List.mem_range.1 hi))
  refine reduce_runs app s ?_ hremove
  rw [← hdecoded]
  exact foldlM_read (List.map KeyValue.decoded) hready

end

/-! ## The cluster -/

/-- A job with its workers and its files. -/
structure Cluster where
  job : Job
  procs : Nat → Proc := fun _ => {}
  fs : Files := fun _ => none
  /-- The map tasks that some worker has completed, whether it reports that or not. -/
  mapped : List Nat := []

/-- A step of the cluster. -/
inductive ClusterAction where
  | allocate (w : Nat)
  | run (w : Nat)
  | report (w : Nat)
  | crash (w : Nat)
  | timeout (k : Nat)
  deriving DecidableEq

/-- The map task of a worker that is through with its branch. -/
def completedMap (task : Option Task) (p : Proc) : List Nat :=
  match task with
  | some (.map i) => if p.code = [] then [i] else []
  | _ => []

namespace Cluster

/-- A job that starts, without files. -/
def init (files : List GoString) (nReduce : Nat) : Cluster := { job := .init files nReduce }

/-- A worker crashes. Its variables and its temporary file are lost, and the coordinator does not
know. -/
def crash (c : Cluster) (w : Nat) : Cluster :=
  { c with job := c.job.crash w, procs := Function.update c.procs w {} }

/-- The steps of a job. `log.Fatalf` is a crash. -/
def step (app : App) (s : KeySort) (c : Cluster) : ClusterAction → Option Cluster
  | .allocate w => do
    let (job, reply) ← c.job.allocate w
    return { c with job, procs := Function.update c.procs w (app.start reply) }
  | .run w =>
    if (c.procs w).code = [] then none
    else
      match (c.procs w).step app s c.fs with
      | none => some (c.crash w)
      | some (fs, p) => some { c with
          fs
          procs := Function.update c.procs w p
          mapped := c.mapped ++ completedMap (c.job.tasks w) p }
  | .report w =>
    if (c.procs w).code = [] then (c.job.report w).map fun job => { c with job } else none
  | .crash w => some (c.crash w)
  | .timeout k => (c.job.timeout k).map fun job => { c with job }

end Cluster

/-- A step of the cluster, with what it needs. -/
inductive Cluster.Stepped (app : App) (s : KeySort) (c : Cluster) :
    ClusterAction → Cluster → Prop where
  | allocate {w : Nat} {job : Job} {reply : WorkerReply}
    (h : c.job.allocate w = some (job, reply)) :
      Stepped app s c (.allocate w)
        { c with job, procs := Function.update c.procs w (app.start reply) }
  | run {w : Nat} {fs : Files} {p : Proc} (hcode : (c.procs w).code ≠ [])
      (h : (c.procs w).step app s c.fs = some (fs, p)) :
      Stepped app s c (.run w) { c with
        fs
        procs := Function.update c.procs w p
        mapped := c.mapped ++ completedMap (c.job.tasks w) p }
  | fail {w : Nat} : Stepped app s c (.run w) (c.crash w)
  | report {w : Nat} {job : Job} (hcode : (c.procs w).code = []) (h : c.job.report w = some job) :
      Stepped app s c (.report w) { c with job }
  | crash {w : Nat} : Stepped app s c (.crash w) (c.crash w)
  | timeout {k : Nat} {job : Job} (h : c.job.timeout k = some job) :
      Stepped app s c (.timeout k) { c with job }

/-- A step is one of those that `Stepped` lists. -/
theorem Cluster.stepped_of_step {app : App} {s : KeySort} {c c' : Cluster} {a : ClusterAction}
    (h : c.step app s a = some c') : c.Stepped app s a c' := by
  cases a with
  | allocate w =>
    obtain ⟨⟨job, reply⟩, halloc, heq⟩ := Option.bind_eq_some_iff.1 h
    cases heq
    exact .allocate halloc
  | run w =>
    simp only [Cluster.step] at h
    split at h
    · cases h
    next hcode =>
    split at h
    · cases h
      exact .fail
    · next fs p hrun =>
      cases h
      exact .run hcode hrun
  | report w =>
    simp only [Cluster.step] at h
    split at h
    · next hcode =>
      obtain ⟨job, hreport, rfl⟩ := Option.map_eq_some_iff.1 h
      exact .report hcode hreport
    · cases h
  | crash w =>
    cases h
    exact .crash
  | timeout k =>
    obtain ⟨job, htimeout, rfl⟩ := Option.map_eq_some_iff.1 h
    exact .timeout htimeout

/-- The reduce task of which a worker is about to remove an input. -/
def Proc.removing (p : Proc) : Option Nat :=
  match p.code with
  | .remove (.intermediate _ r) :: _ => some r
  | _ => none

/-- No input of reduce task `r` is removed before the task is recorded as finished. `Worker` always
removes before it reports. So if there are inputs at all, the guard covers a run up to the first
removal, and no run that meets it records `r` as finished. -/
def KeepsInputs (r : Nat) (c : Cluster) : ClusterAction → Prop
  | .run w => (c.procs w).removing = some r → c.job.master.reducetasklog[r]? = some .finished
  | _ => True

instance (r : Nat) (c : Cluster) : DecidablePred (KeepsInputs r c)
  | .run _ => inferInstanceAs (Decidable (_ → _))
  | .allocate _ | .report _ | .crash _ | .timeout _ => isTrue trivial

/-! ## Workers at map tasks -/

section
variable {app : App} {s : KeySort} {nReduce i r : Nat} {filename : GoString} {fs fs' : Files}
  {p p' : Proc}

/-- The operations for one bucket. -/
def App.block (app : App) (nReduce i : Nat) (filename : GoString) (r : Nat) : List Instr :=
  .create :: ((app.share nReduce r (app.emitted filename)).map .encode ++
    [.rename (.intermediate i r)])

/-- The branch for a map task, bucket by bucket. -/
theorem mapCode_eq (app : App) (nReduce i : Nat) (filename : GoString) :
    app.mapCode nReduce i filename = (List.range nReduce).flatMap
      (app.block nReduce i filename) := by
  rw [App.mapCode, zipIdx_buckets, List.flatMap_map]
  rfl

/-- A worker at a map task, with the buckets `rest` to go: between two buckets, or after some of
the pairs of the first one of them. -/
def Mapping (app : App) (nReduce i : Nat) (filename : GoString) (rest : List Nat) (p : Proc) :
    Prop :=
  p.code = rest.flatMap (app.block nReduce i filename) ∨
    ∃ r rest' written unwritten, rest = r :: rest' ∧
      app.share nReduce r (app.emitted filename) = written ++ unwritten ∧
        p.temp = written.map .pair ∧
      p.code = unwritten.map .encode ++
        .rename (.intermediate i r) :: rest'.flatMap (app.block nReduce i filename)

/-- A worker that has nothing left to do has no buckets to go. -/
theorem Mapping.rest_eq_nil {rest : List Nat} (h : Mapping app nReduce i filename rest p)
    (hcode : p.code = []) : rest = [] := by
  rcases h with h | ⟨r, rest', written, unwritten, rfl, -, -, h⟩
  · cases rest with
    | nil => rfl
    | cons r rest =>
      rw [hcode] at h
      cases h
  · rw [hcode] at h
    cases unwritten <;> cases h

/-- The next operation writes to the temporary file, or makes it the file of a bucket. -/
theorem Mapping.step {rest : List Nat} (h : Mapping app nReduce i filename rest p)
    (hcode : p.code ≠ []) (hstep : p.step app s fs = some (fs', p')) :
    fs' = fs ∧ Mapping app nReduce i filename rest p' ∨
      ∃ r rest', rest = r :: rest' ∧ Mapping app nReduce i filename rest' p' ∧
        fs' = Function.update fs (.intermediate i r)
          (some ((app.share nReduce r (app.emitted filename)).map .pair)) := by
  rcases h with h | ⟨r, rest', written, unwritten, rfl, hshare, htemp, h⟩
  · cases rest with
    | nil => exact absurd h hcode
    | cons r rest =>
      rw [List.flatMap_cons, App.block, List.cons_append] at h
      simp only [Proc.step, h] at hstep
      cases hstep
      refine .inl ⟨rfl,
        .inr ⟨r, rest, [], app.share nReduce r (app.emitted filename), rfl, rfl, rfl, ?_⟩⟩
      exact List.append_assoc ..
  · cases unwritten with
    | nil =>
      rw [List.map_nil, List.nil_append] at h
      simp only [Proc.step, h] at hstep
      cases hstep
      refine .inr ⟨r, rest', rfl, .inl rfl, ?_⟩
      rw [htemp, hshare, List.append_nil]
    | cons kv unwritten =>
      rw [List.map_cons, List.cons_append] at h
      simp only [Proc.step, h] at hstep
      cases hstep
      refine .inl ⟨rfl, .inr ⟨r, rest', written ++ [kv], unwritten, rfl, ?_, ?_, rfl⟩⟩
      · rw [hshare, List.append_assoc]
        rfl
      · rw [htemp, List.map_append]
        rfl

end

/-! ## Workers at reduce tasks -/

section
variable {app : App} {s : KeySort} {nMap r : Nat} {fs fs' : Files} {p p' : Proc}

/-- What one operation does to the files. -/
theorem Proc.step_cases (hstep : p.step app s fs = some (fs', p')) : p'.code <:+ p.code ∧
    (fs' = fs ∨
      (∃ name, Instr.rename name ∈ p.code ∧ fs' = Function.update fs name (some p.temp)) ∨
      ∃ name code, p.code = .remove name :: code ∧ fs' = Function.update fs name none) := by
  obtain ⟨code, l, temp⟩ := p
  cases code with
  | nil =>
    cases hstep
    exact ⟨List.suffix_refl _, .inl rfl⟩
  | cons instr code =>
    have hsuffix : code <:+ instr :: code := List.suffix_cons ..
    cases instr with
    | load name =>
      obtain ⟨file, -, heq⟩ := Option.bind_eq_some_iff.1 hstep
      cases heq
      exact ⟨hsuffix, .inl rfl⟩
    | sort | create | encode kv =>
      cases hstep
      exact ⟨hsuffix, .inl rfl⟩
    | print =>
      -- the loop is left only when there are no pairs any more
      cases l with
      | nil =>
        cases hstep
        exact ⟨hsuffix, .inl rfl⟩
      | cons kv rest =>
        cases hstep
        exact ⟨List.suffix_refl _, .inl rfl⟩
    | rename name =>
      cases hstep
      exact ⟨hsuffix, .inr (.inl ⟨name, List.mem_cons_self, rfl⟩)⟩
    | remove name =>
      simp only [Proc.step] at hstep
      split at hstep
      · cases hstep
        exact ⟨hsuffix, .inr (.inr ⟨name, code, rfl, rfl⟩)⟩
      · cases hstep

/-- A reduce task renames its output only. -/
theorem rename_mem_reduceCode {name : FileName} (h : Instr.rename name ∈ reduceCode nMap r) :
    name = .output r := by
  simpa [reduceCode] using h

/-- A reduce task removes its own inputs only. -/
theorem remove_mem_reduceCode {name : FileName} (h : Instr.remove name ∈ reduceCode nMap r) :
    ∃ i, name = .intermediate i r := by
  obtain ⟨i, -, hi⟩ : ∃ i < nMap, FileName.intermediate i r = name := by
    simpa [reduceCode] using h
  exact ⟨i, hi.symm⟩

/-- The next operation leaves the intermediate files alone, or removes an input of the task. -/
theorem reduce_step (h : p.code <:+ reduceCode nMap r) (hstep : p.step app s fs = some (fs', p')) :
    p'.code <:+ reduceCode nMap r ∧ ((∀ i r', fs' (.intermediate i r') = fs (.intermediate i r')) ∨
      ∃ i code, p.code = .remove (.intermediate i r) :: code ∧
        fs' = Function.update fs (.intermediate i r) none) := by
  obtain ⟨hsuffix, hfs⟩ := Proc.step_cases hstep
  refine ⟨hsuffix.trans h, ?_⟩
  rcases hfs with rfl | ⟨name, hmem, rfl⟩ | ⟨name, code, hcode, rfl⟩
  · exact .inl fun _ _ => rfl
  · rw [rename_mem_reduceCode (h.subset hmem)]
    exact .inl fun i r' => Function.update_of_ne (by simp) ..
  · obtain ⟨i, rfl⟩ := remove_mem_reduceCode (h.subset (hcode ▸ List.mem_cons_self))
    exact .inr ⟨i, code, hcode, rfl⟩

end

/-! ## The inputs of a reduce task -/

section
variable (app : App) (files : List GoString) (nReduce r : Nat)

/-- As long as `r` is not finished, `mr-i-r` has the pairs of map task `i` that hash to `r`. -/
def InputThere (m : Master) (fs : Files) (i : Nat) : Prop :=
  m.status (.reduce r) ≠ some .finished →
    fs (.intermediate i r) = some ((app.share nReduce r (app.pairs files i)).map .pair)

/-- A worker at a task, or without one. -/
def AtTask (m : Master) (fs : Files) (p : Proc) : Option Task → Prop
  | none => p.code = []
  | some (.map i) =>
    ∃ filename done rest, files[i]? = some filename ∧ done ++ rest = List.range nReduce ∧
      Mapping app nReduce i filename rest p ∧ (r ∈ done → InputThere app files nReduce r m fs i)
  | some (.reduce r') => p.code <:+ reduceCode files.length r'

/-- What holds in every state of a run that keeps the inputs of `r`. -/
structure Intact (c : Cluster) : Prop where
  files_eq : c.job.master.files = files
  nMap_eq : c.job.master.nMap = files.length
  nReduce_eq : c.job.master.nReduce = nReduce
  workers : ∀ w, AtTask app files nReduce r c.job.master c.fs (c.procs w) (c.job.tasks w)
  mapped : ∀ i ∈ c.mapped, InputThere app files nReduce r c.job.master c.fs i
  finished : ∀ i, c.job.master.status (.map i) = some .finished →
    InputThere app files nReduce r c.job.master c.fs i

end

section
variable {app : App} {files : List GoString} {nReduce r w : Nat} {c : Cluster} {s : KeySort}
  {m m' : Master}
  {fs fs' : Files} {p : Proc} {task : Option Task}

/-- What is finished stays finished. -/
theorem InputThere.later {i : Nat} {reported : Option Task}
    (h : InputThere app files nReduce r m fs i)
    (hlater : m.Later m' reported) : InputThere app files nReduce r m' fs i := fun hno =>
  h fun hyes => hno ((hlater.finished_iff _).2 (.inl hyes))

/-- What a worker relies on is that inputs stay. -/
theorem AtTask.mono (h : AtTask app files nReduce r m fs p task)
    (hkeep : ∀ i, InputThere app files nReduce r m fs i →
      InputThere app files nReduce r m' fs' i) :
    AtTask app files nReduce r m' fs' p task := by
  match task, h with
  | none, h | some (.reduce r'), h => exact h
  | some (.map i), ⟨filename, done, rest, hfile, hrange, hmapping, hdone⟩ =>
    exact ⟨filename, done, rest, hfile, hrange, hmapping, fun hr => hkeep i (hdone hr)⟩

/-- If one worker has a new task and a new state, then only that one has to be looked at. -/
theorem AtTask.update {tasks : Nat → Option Task} {procs : Nat → Proc}
    (h : ∀ w, AtTask app files nReduce r m fs (procs w) (tasks w))
    (hw : AtTask app files nReduce r m fs p task) (w' : Nat) :
    AtTask app files nReduce r m fs (Function.update procs w p w')
      (Function.update tasks w task w') := by
  by_cases heq : w' = w
  · rw [heq, Function.update_self, Function.update_self]
    exact hw
  · rw [Function.update_of_ne heq, Function.update_of_ne heq]
    exact h w'

/-- A worker that is through with a map task has written all files. -/
theorem AtTask.of_code_eq_nil {i : Nat} (h : AtTask app files nReduce r m fs p (some (.map i)))
    (hr : r < nReduce) (hcode : p.code = []) : InputThere app files nReduce r m fs i := by
  obtain ⟨filename, done, rest, -, hrange, hmapping, hdone⟩ := h
  rw [hmapping.rest_eq_nil hcode, List.append_nil] at hrange
  exact hdone (hrange ▸ List.mem_range.2 hr)

/-- A worker starts with a task. -/
theorem AtTask.start {reply : WorkerReply} (h : Intact app files nReduce r c)
    (halloc : Allocated c.job.master m reply) :
    AtTask app files nReduce r m' fs (app.start reply) reply.task := by
  cases halloc with
  | waiting | jobFinished => rfl
  | @map i filename _ hfile =>
    rw [h.files_eq] at hfile
    refine ⟨filename, [], List.range nReduce, hfile, rfl, .inl ?_, fun hr => by cases hr⟩
    rw [← h.nReduce_eq]
    exact mapCode_eq ..
  | reduce =>
    rw [App.start, h.nMap_eq]
    exact List.suffix_refl _

/-- An operation at a map task: the file that it renames is complete. -/
theorem AtTask.map_step {i : Nat} {p' : Proc}
    (h : AtTask app files nReduce r m fs p (some (.map i)))
    (hcode : p.code ≠ []) (hstep : p.step app s fs = some (fs', p')) :
    (∀ j, InputThere app files nReduce r m fs j → InputThere app files nReduce r m fs' j) ∧
      AtTask app files nReduce r m fs' p' (some (.map i)) := by
  obtain ⟨filename, done, rest, hfile, hrange, hmapping, hdone⟩ := h
  rcases hmapping.step hcode hstep with ⟨rfl, hmapping'⟩ | ⟨r', rest', rfl, hmapping', rfl⟩
  · exact ⟨fun _ hj => hj, filename, done, rest, hfile, hrange, hmapping', hdone⟩
  have hpairs : app.emitted filename = app.pairs files i := by
    rw [App.pairs, hfile]
    rfl
  rw [hpairs]
  have hkeep : ∀ j, InputThere app files nReduce r m fs j → InputThere app files nReduce r m
      (Function.update fs (.intermediate i r')
        (some ((app.share nReduce r' (app.pairs files i)).map .pair))) j := by
    intro j hj hno
    rw [Function.update_apply]
    split
    · next heq =>
      cases heq
      rfl
    · exact hj hno
  refine ⟨hkeep, filename, done ++ [r'], rest', hfile, by rw [← hrange, List.append_assoc]; rfl,
    hmapping', fun hmem => ?_⟩
  rcases List.mem_append.1 hmem with hold | hnew
  · exact hkeep i (hdone hold)
  · intro _
    rw [List.mem_singleton.1 hnew, Function.update_self]

/-- An operation at a reduce task, which does not remove an input of `r` too early. -/
theorem AtTask.reduce_step {r' : Nat} {p' : Proc}
    (h : AtTask app files nReduce r m fs p (some (.reduce r')))
    (hkeeps : ∀ i code, p.code = .remove (.intermediate i r) :: code →
      m.status (.reduce r) = some .finished)
    (hstep : p.step app s fs = some (fs', p')) :
    (∀ j, InputThere app files nReduce r m fs j → InputThere app files nReduce r m fs' j) ∧
      AtTask app files nReduce r m fs' p' (some (.reduce r')) := by
  obtain ⟨hcode, hfs⟩ := Mr.reduce_step h hstep
  refine ⟨fun j hj hno => ?_, hcode⟩
  rcases hfs with hsame | ⟨i, code, hp, rfl⟩
  · rw [hsame]
    exact hj hno
  · rw [Function.update_of_ne]
    · exact hj hno
    · rintro heq
      cases heq
      exact hno (hkeeps _ code hp)

namespace Intact

theorem init (app : App) (files : List GoString) (nReduce r : Nat) :
    Intact app files nReduce r (.init files nReduce) where
  files_eq := rfl
  nMap_eq := rfl
  nReduce_eq := rfl
  workers _ := rfl
  mapped _ h := by cases h
  finished i h := by
    have hlog : (List.replicate files.length TaskStatus.notAllocated)[i]? = some .finished := h
    rw [List.getElem?_replicate] at hlog
    split at hlog <;> cases hlog

/-- The coordinator goes on. The map task that is reported, if there is one, was completed. -/
theorem later {job : Job} {procs : Nat → Proc} {reported : Option Task}
    (h : Intact app files nReduce r c) (hlater : c.job.master.Later job.master reported)
    (hreported : ∀ i, .map i ∈ reported → InputThere app files nReduce r c.job.master c.fs i)
    (hworkers : ∀ w, AtTask app files nReduce r c.job.master c.fs (procs w) (job.tasks w)) :
    Intact app files nReduce r { c with job, procs } where
  files_eq := hlater.files_eq.trans h.files_eq
  nMap_eq := hlater.nMap_eq.trans h.nMap_eq
  nReduce_eq := hlater.nReduce_eq.trans h.nReduce_eq
  workers w := (hworkers w).mono fun _ hi => hi.later hlater
  mapped i hi := (h.mapped i hi).later hlater
  finished i hi := by
    rcases (hlater.finished_iff _).1 hi with hold | hnew
    · exact (h.finished i hold).later hlater
    · exact (hreported i hnew).later hlater

theorem allocate {job : Job} {reply : WorkerReply} (h : Intact app files nReduce r c)
    (halloc : c.job.allocate w = some (job, reply)) :
    Intact app files nReduce r
      { c with job, procs := Function.update c.procs w (app.start reply) } := by
  obtain ⟨-, hm, htasks, -⟩ := Job.allocate_cases halloc
  refine h.later (Master.Later.of_allocated hm) (fun i hi => by cases hi) ?_
  rw [htasks]
  exact AtTask.update h.workers (AtTask.start h hm)

theorem report {job : Job} (h : Intact app files nReduce r c) (hr : r < nReduce)
    (hcode : (c.procs w).code = []) (hreport : c.job.report w = some job) :
    Intact app files nReduce r { c with job } := by
  obtain ⟨task, htask, hm, htasks, -⟩ := Job.report_cases hreport
  refine h.later (Master.Later.of_receiveFinished hm) (fun i hi => ?_) ?_
  · cases hi
    have hat := h.workers w
    rw [htask] at hat
    exact hat.of_code_eq_nil hr hcode
  · rw [htasks, ← Function.update_eq_self w c.procs]
    exact AtTask.update h.workers hcode

theorem timeout {job : Job} {k : Nat} (h : Intact app files nReduce r c)
    (htimeout : c.job.timeout k = some job) : Intact app files nReduce r { c with job } := by
  obtain ⟨task, hm, htasks, -⟩ := Job.timeout_cases htimeout
  refine h.later (hm ▸ Master.Later.of_expire _ task) (fun i hi => by cases hi) ?_
  rw [htasks]
  exact h.workers

theorem crash (h : Intact app files nReduce r c) (w : Nat) :
    Intact app files nReduce r (c.crash w) :=
  h.later (.refl _) (fun i hi => by cases hi) (AtTask.update h.workers rfl)

/-- An operation of a worker. -/
theorem run {p' : Proc} (h : Intact app files nReduce r c) (hr : r < nReduce)
    (hkeeps : KeepsInputs r c (.run w)) (hcode : (c.procs w).code ≠ [])
    (hstep : (c.procs w).step app s c.fs = some (fs', p')) :
    Intact app files nReduce r { c with
      fs := fs'
      procs := Function.update c.procs w p'
      mapped := c.mapped ++ completedMap (c.job.tasks w) p' } := by
  obtain ⟨hkeep, hat⟩ : (∀ j, InputThere app files nReduce r c.job.master c.fs j →
      InputThere app files nReduce r c.job.master fs' j) ∧
      AtTask app files nReduce r c.job.master fs' p' (c.job.tasks w) := by
    have hw := h.workers w
    match htask : c.job.tasks w with
    | none =>
      rw [htask] at hw
      exact absurd hw hcode
    | some (.map i) =>
      rw [htask] at hw
      exact hw.map_step hcode hstep
    | some (.reduce r') =>
      rw [htask] at hw
      refine hw.reduce_step (fun i code hp => ?_) hstep
      exact hkeeps (by rw [Proc.removing, hp])
  refine { h with
    workers := ?_
    mapped := fun i hi => ?_
    finished := fun i hi => hkeep i (h.finished i hi) }
  · rw [← Function.update_eq_self w c.job.tasks]
    exact AtTask.update (fun w' => (h.workers w').mono hkeep) hat
  · rcases List.mem_append.1 hi with hold | hnew
    · exact hkeep i (h.mapped i hold)
    · unfold completedMap at hnew
      split at hnew
      · next j htask =>
        rw [htask] at hat
        split at hnew
        · next hnil =>
          rw [List.mem_singleton.1 hnew]
          exact hat.of_code_eq_nil hr hnil
        · cases hnew
      · cases hnew

/-- Every step that keeps the inputs of `r`. -/
theorem step {a : ClusterAction} {c' : Cluster} (h : Intact app files nReduce r c)
    (hr : r < nReduce)
    (hkeeps : KeepsInputs r c a) (hstep : c.step app s a = some c') :
    Intact app files nReduce r c' := by
  cases Cluster.stepped_of_step hstep with
  | allocate halloc => exact h.allocate halloc
  | run hcode hrun => exact h.run hr hkeeps hcode hrun
  | fail | crash => exact h.crash _
  | report hcode hreport => exact h.report hr hcode hreport
  | timeout htimeout => exact h.timeout htimeout

end Intact

end

/-- **A reduce task can be executed again** as long as it has removed none of its inputs before it
is recorded as finished: when all map tasks have completed, all inputs are there. -/
theorem inputs_intact (app : App) (s : KeySort) (files : List GoString) (nReduce r : Nat)
    (hr : r < nReduce)
    {c : Cluster} (h : Reach (Cluster.step app s) (KeepsInputs r) (.init files nReduce) c)
    (hmaps : ∀ i < files.length,
      i ∈ c.mapped ∨ c.job.master.maptasklog[i]? = some .finished)
    (hreduce : c.job.master.reducetasklog[r]? ≠ some .finished) :
    ∀ i < files.length,
      c.fs (.intermediate i r) = some ((app.share nReduce r (app.pairs files i)).map .pair) := by
  have hintact : Intact app files nReduce r c :=
    h.invariant (P := Intact app files nReduce r) (.init app files nReduce r)
      fun hs hok he => hs.step hr hok he
  intro i hi
  rcases hmaps i hi with hmapped | hfinished
  · exact hintact.mapped i hmapped hreduce
  · exact hintact.finished i hfinished hreduce

/-- A worker maps the only file, whose only pair takes three operations. -/
def mapOne : List ClusterAction := [.allocate 0, .run 0, .run 0, .run 0, .report 0]

/-- A worker reduces, up to the renaming of its output. -/
def reduceOne : List ClusterAction := [.allocate 0, .run 0, .run 0, .run 0, .run 0, .run 0, .run 0]

/-- The worker removes its input. If it crashes now, the task cannot be executed again. -/
theorem removed_before_report :
    ∃ c, Reach (Cluster.step wordCount insertionSortByKey) Always (.init [[7]] 1) c ∧
      c.job.master.maptasklog[0]? = some .finished ∧
      c.job.master.reducetasklog[0]? = some .waiting ∧ c.fs (.intermediate 0 0) = none :=
  ⟨_, reach_reached (mapOne ++ reduceOne ++ [ClusterAction.run 0]), by decide +kernel⟩

/-- The worker crashes before, and its task is given to another one. -/
theorem inputs_intact_crash :
    ∃ c, Reach (Cluster.step wordCount insertionSortByKey) (KeepsInputs 0) (.init [[7]] 1) c ∧
      c.job.tasks 1 = some (.reduce 0) ∧ ∀ i < 1, c.fs (.intermediate i 0) =
        some ((wordCount.share 1 0 (wordCount.pairs [[7]] i)).map .pair) := by
  have hreach : Reach (Cluster.step wordCount insertionSortByKey) (KeepsInputs 0) (.init [[7]] 1)
      (reached _ _ _ (mapOne ++ reduceOne ++ [ClusterAction.crash 0, .timeout 1, .allocate 1])) :=
        reach_reached _
  exact ⟨_, hreach,
    by decide +kernel, inputs_intact wordCount insertionSortByKey [[7]] 1 0 (by decide)
    hreach (by decide +kernel) (by decide +kernel)⟩

end DistLabs.Mr
