import DistLabs.Lib.Go
import DistLabs.Lib.Runs
import Mathlib.Data.List.Sort
import Mathlib.Logic.Function.Basic

/-!
# The branches of `mr/worker.go`, and `main/mrsequential.go`

A map task puts its pairs into buckets by hash, one file for each reduce task. A reduce task reads
its bucket of every map task, sorts the pairs, and writes one line for every run of equal keys.
`mrsequential` does that with all pairs at once. If the result of `reducef` does not depend on the
order of the values, both write the same lines (`distributed_eq_sequential`).

`App` has what a job is given. The input files exist and do not change.
-/

namespace DistLabs.Mr

open Lib

/-! ## The functions -/

/-- `KeyValue`. -/
structure KeyValue where
  key : GoString
  value : GoString
  deriving DecidableEq

/-- The application: the contents of the input files, the two functions of the plugin, and `ihash`,
of which only the range matters. -/
structure App where
  content : GoString → GoString
  mapf : GoString → GoString → List KeyValue
  reducef : GoString → List GoString → GoString
  ihash : GoString → Nat
  ihash_le : ∀ key, ihash key ≤ 0x7fffffff

/-- A way to sort by key. `sort.Sort` is not stable. -/
structure KeySort where
  sort : List KeyValue → List KeyValue
  perm : ∀ l, (sort l).Perm l
  sorted : ∀ l, (sort l).Pairwise fun a b => ¬ b.key < a.key

/-- The names of the files that workers write: `mr-i-r` and `mr-out-r`. -/
inductive FileName where
  | intermediate (i r : Nat)
  | output (r : Nat)
  deriving DecidableEq

/-- What is written to a file at a time: a pair by `enc.Encode`, or a line by `fmt.Fprintf`. -/
inductive Record where
  | pair (kv : KeyValue)
  | text (line : GoString)
  deriving DecidableEq

/-- The files that exist. -/
abbrev Files := FileName → Option (List Record)

/-- A line of the output. -/
structure Line where
  key : GoString
  output : GoString
  deriving DecidableEq

/-- The format `%v %v\n`. -/
def Line.record (line : Line) : Record := .text (line.key ++ [32] ++ line.output ++ [10])

namespace App

variable (app : App)

/-- What `mapf` makes of an input file. -/
def emitted (filename : GoString) : List KeyValue := app.mapf filename (app.content filename)

/-- What map task `i` makes of its file. -/
def pairs (files : List GoString) (i : Nat) : List KeyValue := (files[i]?.map app.emitted).getD []

/-- The bucket of a key. -/
def bucket (nReduce : Nat) (kv : KeyValue) : Nat := app.ihash kv.key % nReduce

/-- The loop that hashes into buckets. -/
def buckets (nReduce : Nat) (intermediate : List KeyValue) : List (List KeyValue) :=
  intermediate.foldl (fun buckets kv => buckets.modify (app.bucket nReduce kv) (· ++ [kv]))
    (List.replicate nReduce [])

/-- The branch of `Worker` for a map task. A temporary file is written and renamed, which is one
assignment here. -/
def mapBranch (nReduce mapTaskNumber : Nat) (filename : GoString) (fs : Files) : Files :=
  (app.buckets nReduce (app.emitted filename)).zipIdx.foldl
    (fun fs b => Function.update fs (.intermediate mapTaskNumber b.2) (some (b.1.map .pair))) fs

/-- The loop that decodes a file. It ends with the first thing that is not a pair. -/
def readAll : List Record → List KeyValue
  | .pair kv :: file => kv :: readAll file
  | _ => []

/-- The line of a run of equal keys. -/
def line (run : GoString × List KeyValue) : Line :=
  ⟨run.1, app.reducef run.1 (run.2.map KeyValue.value)⟩

/-- The loop that calls `reducef` on each distinct key: `i` is the start of a run and `j` its
end. -/
def lines (intermediate : List KeyValue) : List Line :=
  (runs KeyValue.key intermediate).map app.line

/-- The branch of `Worker` for a reduce task. `none` is `log.Fatalf`: a file is missing. -/
def reduceBranch (s : KeySort) (nMap reduceTaskNumber : Nat) (fs : Files) : Option Files := do
  let intermediate ← (List.range nMap).foldlM (fun intermediate i => do
    let file ← fs (.intermediate i reduceTaskNumber)
    return intermediate ++ readAll file) []
  let output := (app.lines (s.sort intermediate)).map Line.record
  let fs := Function.update fs (.output reduceTaskNumber) (some output)
  (List.range nMap).foldlM (fun fs i =>
    if (fs (.intermediate i reduceTaskNumber)).isSome then
      some (Function.update fs (.intermediate i reduceTaskNumber) none)
    else none) fs

/-- `main` of `mrsequential.go`: the contents of `mr-out-0`. -/
def mrsequential (s : KeySort) (files : List GoString) : List Record :=
  let intermediate :=
    files.foldl (fun intermediate filename => intermediate ++ app.emitted filename) []
  (app.lines (s.sort intermediate)).map Line.record

/-- All map tasks, and then all reduce tasks, each in some order. -/
def distributed (sorts : Nat → KeySort) (nReduce nMap : Nat) (maps : List (GoString × Nat))
    (reduces : List Nat) (fs : Files) : Option Files :=
  reduces.foldlM (fun fs r => app.reduceBranch (sorts r) nMap r fs)
    (maps.foldl (fun fs e => app.mapBranch nReduce e.2 e.1 fs) fs)

end App

/-! ## The files of a job -/

section
variable {app : App} {nReduce nMap i r : Nat} {fs : Files} {l : List KeyValue}

/-- The pairs of a map task that hash to `r`. -/
def App.share (app : App) (nReduce r : Nat) (l : List KeyValue) : List KeyValue :=
  l.filter (app.bucket nReduce · = r)

/-- A share has the pairs whose key hashes to the task. -/
theorem mem_share {kv : KeyValue} :
    kv ∈ app.share nReduce r l ↔ kv ∈ l ∧ app.ihash kv.key % nReduce = r := by
  rw [App.share, List.mem_filter, decide_eq_true_iff, App.bucket]

/-- The loop puts every pair into the bucket of its key. -/
theorem buckets_eq (app : App) (nReduce : Nat) (l : List KeyValue) :
    app.buckets nReduce l = (List.range nReduce).map fun r => app.share nReduce r l := by
  induction l using List.reverseRecOn with
  | nil =>
    refine List.ext_getElem? fun r => ?_
    simp [App.buckets, App.share, List.getElem?_replicate]
  | append_singleton l kv ih =>
    have hstep : app.buckets nReduce (l ++ [kv]) =
        (app.buckets nReduce l).modify (app.bucket nReduce kv) (· ++ [kv]) := by
      rw [App.buckets, List.foldl_append]
      rfl
    refine List.ext_getElem? fun r => ?_
    rw [hstep, ih, List.getElem?_modify, List.getElem?_map, List.getElem?_map]
    by_cases hr : r < nReduce
    · rw [List.getElem?_range hr]
      simp only [Option.map_eq_map, Option.map_some, App.share, List.filter_append]
      by_cases hb : app.bucket nReduce kv = r
      · simp [hb]
      · simp [hb]
    · rw [List.getElem?_eq_none (by simpa using hr)]
      rfl

/-- The buckets with their numbers. -/
theorem zipIdx_buckets (app : App) (nReduce : Nat) (l : List KeyValue) :
    (app.buckets nReduce l).zipIdx = (List.range nReduce).map fun r =>
      (app.share nReduce r l, r) := by
  refine List.ext_getElem? fun r => ?_
  rw [buckets_eq, List.getElem?_zipIdx, List.getElem?_map, List.getElem?_map]
  by_cases hr : r < nReduce
  · rw [List.getElem?_range hr]
    simp
  · rw [List.getElem?_eq_none (by simpa using hr)]
    rfl

/-- What a map task writes. -/
theorem mapBranch_intermediate (app : App) {r : Nat} (hr : r < nReduce) (i : Nat)
    (filename : GoString) (fs : Files) : app.mapBranch nReduce i filename fs (.intermediate i r) =
      some ((app.share nReduce r (app.emitted filename)).map .pair) := by
  rw [App.mapBranch, zipIdx_buckets, List.foldl_map]
  refine foldl_of_mem (P := fun fs : Files => fs (.intermediate i r) =
    some ((app.share nReduce r (app.emitted filename)).map .pair)) (List.mem_range.2 hr)
    (fun fs => Function.update_self ..) (fun fs r' _ hfs => ?_) fs
  rw [Function.update_apply]
  split
  · next heq =>
    cases heq
    rfl
  · exact hfs

/-- A map task leaves the files of other tasks alone. -/
theorem mapBranch_of_ne (app : App) (nReduce : Nat) {i : Nat} (filename : GoString) (fs : Files)
    {name : FileName} (h : ∀ r, name ≠ .intermediate i r) :
    app.mapBranch nReduce i filename fs name = fs name := by
  rw [App.mapBranch]
  refine List.foldlRecOn (motive := fun fs' : Files => fs' name = fs name) _ _ rfl
    fun fs' hfs' b _ => ?_
  rw [Function.update_of_ne (h b.2), hfs']

/-- What was encoded is decoded. -/
theorem readAll_map (l : List KeyValue) : App.readAll (l.map .pair) = l := by
  induction l with
  | nil => rfl
  | cons kv l ih => rw [List.map_cons, App.readAll, ih]

/-- The files that a reduce task needs are there. -/
def Ready (fs : Files) (nMap r : Nat) (pairs : Nat → List KeyValue) : Prop :=
  ∀ i < nMap, fs (.intermediate i r) = some ((pairs i).map .pair)

variable {pairs : Nat → List KeyValue}

/-- The loop over the inputs of a reduce task, where `f` is done to the pairs of each one. -/
theorem foldlM_read (f : List KeyValue → List KeyValue) (h : Ready fs nMap r pairs) :
    (List.range nMap).foldlM (fun intermediate i => do
      let file ← fs (.intermediate i r)
      return intermediate ++ f (App.readAll file)) [] =
        some ((List.range nMap).flatMap fun i => f (pairs i)) := by
  induction nMap with
  | zero => rfl
  | succ n ih =>
    rw [List.range_succ, List.foldlM_append, ih fun i hi => h i (Nat.lt_succ_of_lt hi),
      List.flatMap_append]
    simp [h n (Nat.lt_succ_self n), readAll_map]

/-- The inputs of a reduce task are still there when its output is. -/
theorem Ready.isSome_update (h : Ready fs nMap r pairs) (output : Option (List Record)) {i : Nat}
    (hi : i < nMap) : (Function.update fs (.output r) output (.intermediate i r)).isSome := by
  rw [Function.update_of_ne (by simp), h i hi]
  rfl

/-- All inputs of a reduce task are removed, and nothing else. -/
theorem foldlM_remove (h : ∀ i < nMap, (fs (.intermediate i r)).isSome) :
    ∃ fs', (List.range nMap).foldlM (fun (fs : Files) i =>
        if (fs (.intermediate i r)).isSome then some (Function.update fs (.intermediate i r) none)
        else none) fs = some fs' ∧
      ∀ name, (∀ i < nMap, name ≠ .intermediate i r) → fs' name = fs name := by
  induction nMap with
  | zero => exact ⟨fs, rfl, fun _ _ => rfl⟩
  | succ n ih =>
    obtain ⟨fs', hfs', hkeep⟩ := ih fun i hi => h i (Nat.lt_succ_of_lt hi)
    have hn : (fs' (.intermediate n r)).isSome := by
      rw [hkeep]
      · exact h n (Nat.lt_succ_self n)
      · rintro i hi heq
        cases heq
        exact lt_irrefl _ hi
    refine ⟨Function.update fs' (.intermediate n r) none, ?_, fun name hname => ?_⟩
    · rw [List.range_succ, List.foldlM_append, hfs']
      simp [hn]
    · rw [Function.update_of_ne (hname n (Nat.lt_succ_self n)),
        hkeep name fun i hi => hname i (Nat.lt_succ_of_lt hi)]

/-- What a reduce task writes, and what it leaves alone. -/
theorem reduceBranch_spec (app : App) (s : KeySort) (h : Ready fs nMap r pairs) :
    ∃ fs', app.reduceBranch s nMap r fs = some fs' ∧
      fs' (.output r) =
        some ((app.lines (s.sort ((List.range nMap).flatMap pairs))).map Line.record) ∧
      ∀ name, name ≠ .output r → (∀ i < nMap, name ≠ .intermediate i r) → fs' name = fs name := by
  have hread := foldlM_read id h
  obtain ⟨fs', hfs', hkeep⟩ := foldlM_remove fun i hi => h.isSome_update
    (some ((app.lines (s.sort ((List.range nMap).flatMap pairs))).map Line.record)) hi
  refine ⟨fs', ?_, ?_, fun name hout hname => ?_⟩
  · simp only [id_eq] at hread
    unfold App.reduceBranch
    rw [hread]
    exact hfs'
  · rw [hkeep _ (by simp), Function.update_self]
  · rw [hkeep name hname, Function.update_of_ne hout]

/-- All reduce tasks, in some order. -/
theorem foldlM_reduceBranch (app : App) (sorts : Nat → KeySort)
    {shares : Nat → Nat → List KeyValue}
    {reduces : List Nat} (hnodup : reduces.Nodup) (h : ∀ r ∈ reduces, Ready fs nMap r (shares r)) :
    ∃ fs', reduces.foldlM (fun fs r => app.reduceBranch (sorts r) nMap r fs) fs = some fs' ∧
      (∀ r ∈ reduces, fs' (.output r) =
        some ((app.lines ((sorts r).sort ((List.range nMap).flatMap (shares r)))).map
          Line.record)) ∧
      ∀ r ∉ reduces, fs' (.output r) = fs (.output r) := by
  induction reduces generalizing fs with
  | nil => exact ⟨fs, rfl, by simp, fun _ _ => rfl⟩
  | cons r reduces ih =>
    obtain ⟨hr, hnodup⟩ := List.nodup_cons.1 hnodup
    obtain ⟨fs₁, hfs₁, hout, hkeep⟩ := reduceBranch_spec app (sorts r) (h r List.mem_cons_self)
    have hready : ∀ r' ∈ reduces, Ready fs₁ nMap r' (shares r') := by
      intro r' hr' i hi
      rw [hkeep _ (by simp), h r' (List.mem_cons_of_mem r hr') i hi]
      rintro j - heq
      cases heq
      exact hr hr'
    obtain ⟨fs', hfs', hall, hother⟩ := ih hnodup hready
    refine ⟨fs', ?_, fun r' hr' => ?_, fun r' hr' => ?_⟩
    · rw [List.foldlM_cons, hfs₁]
      exact hfs'
    · rcases List.mem_cons.1 hr' with rfl | hr'
      · rw [hother r' hr, hout]
      · exact hall r' hr'
    · rw [List.mem_cons, not_or] at hr'
      rw [hother r' hr'.2, hkeep _ (by simpa using hr'.1) (by simp)]

/-- After all map tasks, in some order, all files are there. -/
theorem foldl_mapBranch (app : App) {files : List GoString} {maps : List (GoString × Nat)}
    (hmaps : maps.Perm files.zipIdx) (hr : r < nReduce) (fs : Files) :
    Ready (maps.foldl (fun fs e => app.mapBranch nReduce e.2 e.1 fs) fs) files.length r fun i =>
      app.share nReduce r (app.pairs files i) := by
  intro i hi
  have hfile : ∀ e ∈ maps, e.2 = i → e = (files[i], i) := by
    rintro ⟨filename, j⟩ he rfl
    obtain ⟨-, hj, heq⟩ := List.mem_zipIdx (hmaps.mem_iff.1 he)
    exact Prod.ext (by simpa using heq) rfl
  have hmem : (files[i], i) ∈ maps := by
    refine hmaps.mem_iff.2 (List.mem_zipIdx_iff_getElem?.2 ?_)
    rw [List.getElem?_eq_getElem hi]
  simp only [App.pairs, List.getElem?_eq_getElem hi, Option.map_some, Option.getD_some]
  refine foldl_of_mem (P := fun fs : Files => fs (.intermediate i r) =
    some ((app.share nReduce r (app.emitted files[i])).map .pair)) hmem
    (fun fs => mapBranch_intermediate app hr i files[i] fs) (fun fs e he hfs => ?_) fs
  by_cases hei : e.2 = i
  · rw [hfile e he hei]
    exact mapBranch_intermediate app hr i files[i] fs
  · rw [mapBranch_of_ne, hfs]
    rintro r' heq
    cases heq
    exact hei rfl

end

/-! ## Lines -/

/-- The result of `reducef` does not depend on the order of the values. -/
def App.OrderInsensitive (app : App) : Prop :=
  ∀ key values values', values.Perm values' → app.reducef key values = app.reducef key values'

section
variable {app : App} {nReduce r : Nat} {l all : List KeyValue} {line : Line}

/-- Of two different keys one is smaller. -/
theorem key_antisymm (a b : GoString) (h : ¬ b < a) (h' : ¬ a < b) : a = b := List.le_antisymm h h'

/-- The lines of sorted pairs: one for every key, with all its values. -/
theorem mem_lines (happ : app.OrderInsensitive) (s : KeySort) :
    line ∈ app.lines (s.sort l) ↔ line.key ∈ l.map KeyValue.key ∧
      line.output = app.reducef line.key ((l.filter (·.key = line.key)).map KeyValue.value) := by
  have hvalues : ∀ k, app.reducef k (((s.sort l).filter (·.key = k)).map KeyValue.value) =
      app.reducef k ((l.filter (·.key = k)).map KeyValue.value) := fun k =>
    happ _ _ _ (((s.perm l).filter _).map _)
  have hruns : ∀ k g, (k, g) ∈ runs KeyValue.key (s.sort l) ↔
      k ∈ (s.sort l).map KeyValue.key ∧ g = (s.sort l).filter (·.key = k) := fun k g =>
    mem_runs key_antisymm (s.sorted l)
  rw [App.lines, List.mem_map, ← ((s.perm l).map KeyValue.key).mem_iff, ← hvalues]
  constructor
  · rintro ⟨⟨k, g⟩, hrun, rfl⟩
    obtain ⟨hk, rfl⟩ := (hruns k g).1 hrun
    exact ⟨hk, rfl⟩
  · rintro ⟨hk, hout⟩
    refine ⟨(line.key, _), (hruns _ _).2 ⟨hk, rfl⟩, ?_⟩
    rw [App.line, ← hout]

/-- The keys of the lines are those of the pairs. -/
theorem mem_keys (happ : app.OrderInsensitive) (s : KeySort) {k : GoString} :
    k ∈ (app.lines (s.sort l)).map Line.key ↔ k ∈ l.map KeyValue.key := by
  rw [List.mem_map]
  constructor
  · rintro ⟨line, hline, rfl⟩
    exact ((mem_lines happ s).1 hline).1
  · intro hk
    exact ⟨⟨k, app.reducef k ((l.filter (·.key = k)).map KeyValue.value)⟩,
      (mem_lines happ s).2 ⟨hk, rfl⟩, rfl⟩

/-- Every key has one line. -/
theorem nodup_keys (app : App) (s : KeySort) (l : List KeyValue) :
    ((app.lines (s.sort l)).map Line.key).Nodup := by
  rw [App.lines, List.map_map]
  exact nodup_runs key_antisymm (s.sorted l)

/-- No line occurs twice. -/
theorem nodup_lines (app : App) (s : KeySort) (l : List KeyValue) : (app.lines (s.sort l)).Nodup :=
  (nodup_keys app s l).of_map _

/-- The lines of a reduce task are those of the keys that hash to it. -/
theorem mem_lines_share (happ : app.OrderInsensitive) (s s' : KeySort) :
    line ∈ app.lines (s.sort (app.share nReduce r all)) ↔
      line ∈ app.lines (s'.sort all) ∧ app.ihash line.key % nReduce = r := by
  rw [mem_lines happ, mem_lines happ]
  have hkeys : line.key ∈ (app.share nReduce r all).map KeyValue.key ↔
      line.key ∈ all.map KeyValue.key ∧ app.ihash line.key % nReduce = r := by
    simp only [List.mem_map, mem_share]
    constructor
    · rintro ⟨kv, ⟨hkv, hr⟩, heq⟩
      exact ⟨⟨kv, hkv, heq⟩, heq ▸ hr⟩
    · rintro ⟨⟨kv, hkv, heq⟩, hr⟩
      exact ⟨kv, ⟨hkv, heq ▸ hr⟩, heq⟩
  have hvalues : app.ihash line.key % nReduce = r →
      (app.share nReduce r all).filter (·.key = line.key) = all.filter (·.key = line.key) := by
    intro hr
    rw [App.share, List.filter_filter]
    refine List.filter_congr fun kv _ => ?_
    by_cases hkey : kv.key = line.key
    · simp [hkey, App.bucket, hr]
    · simp [hkey]
  rw [hkeys]
  constructor
  · rintro ⟨⟨hk, hr⟩, hout⟩
    rw [hvalues hr] at hout
    exact ⟨⟨hk, hout⟩, hr⟩
  · rintro ⟨⟨hk, hout⟩, hr⟩
    rw [← hvalues hr] at hout
    exact ⟨⟨hk, hr⟩, hout⟩

/-- The lines of all reduce tasks are the lines of all pairs. -/
theorem flatMap_lines_perm (happ : app.OrderInsensitive) (hpos : 0 < nReduce)
    (sorts : Nat → KeySort) (s : KeySort) (all : List KeyValue) :
    ((List.range nReduce).flatMap fun r =>
      app.lines ((sorts r).sort (app.share nReduce r all))).Perm
      (app.lines (s.sort all)) := by
  refine (List.perm_ext_iff_of_nodup ?_ (nodup_lines app s all)).2 fun line => ?_
  · refine List.nodup_flatMap.2 ⟨fun r _ => nodup_lines app _ _, ?_⟩
    refine List.nodup_range.imp fun hne => ?_
    intro line hline hline'
    exact hne (((mem_lines_share happ _ s).1 hline).2.symm.trans
      ((mem_lines_share happ _ s).1 hline').2)
  · rw [List.mem_flatMap]
    constructor
    · rintro ⟨r, -, hline⟩
      exact ((mem_lines_share happ _ s).1 hline).1
    · intro hline
      exact ⟨_, List.mem_range.2 (Nat.mod_lt _ hpos), (mem_lines_share happ _ s).2 ⟨hline, rfl⟩⟩

end

/-! ## The two programs -/

/-- The shares of all map tasks together are the share of all pairs. -/
theorem flatMap_share (app : App) (nReduce r : Nat) (files : List GoString) :
    ((List.range files.length).flatMap fun i =>
      app.share nReduce r (app.pairs files i)) =
      app.share nReduce r (files.flatMap app.emitted) := by
  have hrange : (List.range files.length).map (app.pairs files) = files.map app.emitted := by
    refine List.ext_getElem (by simp) fun i hi hi' => ?_
    simp only [List.length_map] at hi'
    simp [App.pairs, hi']
  rw [List.flatMap_def, List.flatMap_def, ← hrange, App.share, List.filter_flatten, List.map_map]
  rfl

/-- **Distributed MapReduce writes what `mrsequential` writes**, in whatever order the tasks are
run, and every key has one line in one file. -/
theorem distributed_eq_sequential (app : App) (happ : app.OrderInsensitive) (files : List GoString)
    (nReduce : Nat) (hpos : 0 < nReduce) (sorts : Nat → KeySort) (s : KeySort)
    (maps : List (GoString × Nat)) (hmaps : maps.Perm files.zipIdx) (reduces : List Nat)
    (hreduces : reduces.Perm (List.range nReduce)) (fs₀ : Files) :
    ∃ fs, app.distributed sorts nReduce files.length maps reduces fs₀ = some fs ∧
      ((List.range nReduce).flatMap fun r => (fs (.output r)).getD []).Perm
        (app.mrsequential s files) ∧
      ∃ out : Nat → List Line, (∀ r < nReduce, fs (.output r) = some ((out r).map Line.record)) ∧
        ∀ kv ∈ files.flatMap app.emitted, ∃ r < nReduce, ((out r).map Line.key).count kv.key = 1 ∧
          ∀ r' < nReduce, r' ≠ r → ((out r').map Line.key).count kv.key = 0 := by
  have hready : ∀ r ∈ reduces,
    Ready (maps.foldl (fun fs e => app.mapBranch nReduce e.2 e.1 fs) fs₀)
      files.length r fun i => app.share nReduce r (app.pairs files i) := fun r hr =>
    foldl_mapBranch app hmaps (List.mem_range.1 (hreduces.mem_iff.1 hr)) fs₀
  obtain ⟨fs, hfs, hout, -⟩ :=
    foldlM_reduceBranch app sorts (hreduces.nodup_iff.2 List.nodup_range) hready
  have hfile : ∀ r < nReduce, fs (.output r) = some ((app.lines ((sorts r).sort
      (app.share nReduce r (files.flatMap app.emitted)))).map Line.record) := by
    intro r hr
    rw [hout r (hreduces.mem_iff.2 (List.mem_range.2 hr)), flatMap_share]
  refine ⟨fs, hfs, ?_, _, hfile, fun kv hkv => ?_⟩
  · have hseq : app.mrsequential s files =
        (app.lines (s.sort (files.flatMap app.emitted))).map Line.record := by
      rw [App.mrsequential, List.flatMap_eq_foldl]
    rw [hseq]
    refine List.Perm.trans ?_ ((flatMap_lines_perm happ hpos sorts s _).map Line.record)
    rw [List.map_flatMap]
    refine List.Perm.of_eq (List.flatMap_congr fun r hr => ?_)
    rw [hfile r (List.mem_range.1 hr)]
    rfl
  · refine ⟨app.ihash kv.key % nReduce, Nat.mod_lt _ hpos,
      List.count_eq_one_of_mem (nodup_keys app _ _) ?_, fun r' _ hne => List.count_eq_zero.2 ?_⟩
    · exact (mem_keys happ _).2 (List.mem_map_of_mem (mem_share.2 ⟨hkv, rfl⟩))
    · rw [mem_keys happ, List.mem_map]
      rintro ⟨kv', hkv', heq⟩
      exact hne (heq ▸ (mem_share.1 hkv').2.symm)

/-- The order of `ByKey`. -/
def ByKey (a b : KeyValue) : Prop := a.key ≤ b.key

instance : DecidableRel ByKey := fun a b => inferInstanceAs (Decidable (a.key ≤ b.key))

instance : Std.Total ByKey := ⟨fun a b => List.le_total a.key b.key⟩

instance : IsTrans KeyValue ByKey := ⟨fun _ _ _ hab hbc => List.le_trans hab hbc⟩

/-- One way to sort by key. -/
def insertionSortByKey : KeySort where
  sort := List.insertionSort ByKey
  perm := List.perm_insertionSort ByKey
  sorted := List.pairwise_insertionSort ByKey

/-- Word count, with words of one byte and numbers in unary. The hash of a word is its parity. -/
def wordCount : App where
  content filename := filename
  mapf _ content := content.map fun word => ⟨[word], [1]⟩
  reducef _ values := values.map fun _ => 1
  ihash key := (key.headD 0).toNat % 2
  ihash_le key := (Nat.mod_lt _ Nat.two_pos).le.trans (by decide)

/-- Word count counts its values. -/
theorem wordCount_orderInsensitive : wordCount.OrderInsensitive := by
  intro key values values' hperm
  change values.map _ = values'.map _
  rw [List.map_const', List.map_const', hperm.length_eq]

/-- Two files, of which the second one is mapped first, and two reduce tasks. -/
theorem distributed_eq_sequential_wordCount :
    ∃ fs, wordCount.distributed (fun _ => insertionSortByKey) 2 2
      [([2, 2], 1), ([1, 2, 3], 0)] [1, 0]
        (fun _ => none) = some fs ∧
      ((List.range 2).flatMap fun r => (fs (.output r)).getD []).Perm
        (wordCount.mrsequential insertionSortByKey [[1, 2, 3], [2, 2]]) ∧
      ∃ out : Nat → List Line, (∀ r < 2, fs (.output r) = some ((out r).map Line.record)) ∧
        ∀ kv ∈ [[1, 2, 3], [2, 2]].flatMap wordCount.emitted,
          ∃ r < 2, ((out r).map Line.key).count kv.key = 1 ∧
            ∀ r' < 2, r' ≠ r → ((out r').map Line.key).count kv.key = 0 :=
  distributed_eq_sequential wordCount wordCount_orderInsensitive [[1, 2, 3], [2, 2]] 2
    (by decide) _
    insertionSortByKey _ (by decide) _ (by decide) _

end DistLabs.Mr
