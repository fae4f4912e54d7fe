import DistLabs.Lib.Go
import DistLabs.Lib.Links
import DistLabs.Porcupine.Bitset

/-!
# The functions of `checker.go`

`checkSingle` searches for a linearization. The entries of a history, the calls and returns in the
order of time, are nodes of a doubly linked list. The search takes a call that no return stands
before, if the model allows it, out of the list together with its return (`lift`), and starts again
at the head; when it meets a return, it puts the last call back (`unlift`) and goes on behind it.
The cache has all sets of calls that were taken, with the states of the model they led to.

A pointer is a number: the node of entry `i` has address `i`, and the head of the list comes after
the last one. The fields `next` and `prev` of all nodes are a `Links`. `none` is a panic, by a nil
pointer or an index out of range. The slice `calls` is a list with the last call first. `clientId`
is left out, which only the visualization reads.
-/

namespace DistLabs.Porcupine

open Lib

variable {σ ι ο : Type}

/-! ## Models and histories -/

/-- `Operation`. -/
structure Operation (ι ο : Type) where
  input : ι
  /-- `Call`: invocation time. -/
  call : Int
  output : ο
  /-- `Return`: response time. -/
  ret : Int
  deriving DecidableEq

/-- `Model`, with the fields that the checker uses, after `fillDefault`. -/
structure Model (σ ι ο : Type) where
  partition : List (Operation ι ο) → List (List (Operation ι ο)) := fun history => [history]
  init : σ
  step : σ → ι → ο → Bool × σ
  equal : σ → σ → Bool

/-- The value of an entry, and its kind: a call has an input, a return an output. -/
inductive Value (ι ο : Type) where
  | input (v : ι)
  | output (v : ο)
  deriving DecidableEq

namespace Value

/-- The argument of a call. -/
def input? : Value ι ο → Option ι
  | .input v => some v
  | .output _ => none

/-- The result of a return. -/
def output? : Value ι ο → Option ο
  | .input _ => none
  | .output v => some v

end Value

/-- `entry`. -/
structure Entry (ι ο : Type) where
  value : Value ι ο
  id : Nat
  time : Int
  deriving DecidableEq

/-- `Less` of `byTime`: by time, calls before returns. -/
def Entry.less (a b : Entry ι ο) : Bool :=
  if a.time ≠ b.time then a.time < b.time else a.value.input?.isSome && b.value.output?.isSome

/-- A way to sort entries. `sort.Sort` is not stable. -/
structure EntrySort (ι ο : Type) where
  sort : List (Entry ι ο) → List (Entry ι ο)
  perm : ∀ l, (sort l).Perm l
  sorted : ∀ l, (sort l).Pairwise fun a b => b.less a = false

/-- The two entries of an operation. -/
def Operation.entries (elem : Operation ι ο) (id : Nat) : List (Entry ι ο) :=
  [⟨.input elem.input, id, elem.call⟩, ⟨.output elem.output, id, elem.ret⟩]

/-- `makeEntries`. -/
def makeEntries (s : EntrySort ι ο) (history : List (Operation ι ο)) : List (Entry ι ο) :=
  s.sort (history.zipIdx.flatMap fun x => x.1.entries x.2)

/-! ## Nodes -/

/-- `node`, without its links. -/
structure Node (ι ο : Type) where
  value : Value ι ο
  /-- `match`: the return, for a call. -/
  matching : Option Nat
  id : Nat

/-- `insertBefore`. -/
def insertBefore (links : Links) (n : Nat) : Option Nat → Links
  | none => links
  | some mark =>
    let beforeMark := links.prev mark
    let links := (links.setPrev mark (some n)).setNext n (some mark)
    match beforeMark with
    | none => links
    | some before => (links.setPrev n (some before)).setNext before (some n)

/-- `length`; the list has at most `fuel` nodes. -/
def length (links : Links) : Nat → Option Nat → Nat
  | _, none => 0
  | 0, some _ => 0
  | fuel + 1, some n => length links fuel (links.next n) + 1

/-- What `makeLinkedEntries` has made so far: the nodes from some address on, and the map
`match`. -/
structure LinkedEntries (ι ο : Type) where
  root : Option Nat := none
  nodes : List (Node ι ο) := []
  links : Links := .empty
  returns : GoMap Nat Nat := ∅

/-- The loop of `makeLinkedEntries`, which goes from the last entry to the first. -/
def linkEntries : Nat → List (Entry ι ο) → LinkedEntries ι ο
  | _, [] => {}
  | i, elem :: entries =>
    let l := linkEntries (i + 1) entries
    match elem.value with
    | .output _ =>
      { root := some i
        nodes := ⟨elem.value, none, elem.id⟩ :: l.nodes
        links := insertBefore l.links i l.root
        returns := l.returns.insert elem.id i }
    | .input _ =>
      { root := some i
        nodes := ⟨elem.value, l.returns[elem.id]?, elem.id⟩ :: l.nodes
        links := insertBefore l.links i l.root
        returns := l.returns }

/-- `makeLinkedEntries`. -/
def makeLinkedEntries (entries : List (Entry ι ο)) : LinkedEntries ι ο := linkEntries 0 entries

/-- `lift`. -/
def lift (links : Links) (entry matching : Nat) : Option Links := do
  let _ ← links.next entry
  (← links.unlink entry).unlink matching

/-- `unlift`. -/
def unlift (links : Links) (entry matching : Nat) : Option Links := do
  let links ← links.relink matching
  let _ ← links.next entry
  links.relink entry

/-! ## The search -/

/-- `cacheEntry`. -/
structure CacheEntry (σ : Type) where
  linearized : Bitset
  state : σ

/-- The cache: configurations by the hash of their bits. -/
abbrev Cache (σ : Type) := GoMap (BitVec 64) (List (CacheEntry σ))

/-- `cache[hash]`. -/
def Cache.bucket (cache : Cache σ) (hash : BitVec 64) : List (CacheEntry σ) := cache[hash]?.getD []

/-- `cacheContains`. -/
def cacheContains (model : Model σ ι ο) (cache : Cache σ) (entry : CacheEntry σ) : Bool :=
  (cache.bucket entry.linearized.hash).any fun elem =>
    entry.linearized.equals elem.linearized && model.equal entry.state elem.state

/-- `callsEntry`. -/
structure CallsEntry (σ : Type) where
  entry : Nat
  state : σ

/-- `longest`: for every operation, the longest sequence of operations with it that was found. -/
abbrev Longest := List (Option (List Nat))

/-- The body of the loop over `calls` that updates `longest`, for one call. -/
def updateEntry (seq : List Nat) (longest : Longest) (id : Nat) : Option Longest := do
  let old ← longest[id]?
  return if ∀ l ∈ old, l.length < seq.length then longest.set id (some seq) else longest

/-- The variables of `checkSingle`. -/
structure Search (σ : Type) where
  links : Links
  entry : Option Nat
  linearized : Bitset
  cache : Cache σ := ∅
  calls : List (CallsEntry σ) := []
  longest : Longest
  state : σ

/-- What an iteration of the loop leads to. -/
inductive Outcome (σ : Type) where
  | running (c : Search σ)
  | returned (ok : Bool) (longest : Longest)

section
variable (model : Model σ ι ο) (nodes : List (Node ι ο))

/-- The ids of the calls that were taken, first to last. -/
def seq (calls : List (CallsEntry σ)) : List Nat :=
  calls.reverse.filterMap fun v => nodes[v.entry]?.map Node.id

/-- The loop over `calls` that updates `longest`. -/
def updateLongest (calls : List (CallsEntry σ)) (longest : Longest) : Option Longest :=
  let seq := seq nodes calls
  seq.foldlM (updateEntry seq) longest

/-- The body of the loop at a call. -/
def Search.atCall (c : Search σ) (head entry matching : Nat) : Option (Search σ) := do
  let node ← nodes[entry]?
  let input ← node.value.input?
  let output ← (← nodes[matching]?).value.output?
  let (ok, newState) := model.step c.state input output
  if ok then
    let newLinearized ← c.linearized.set node.id
    let newCacheEntry := ⟨newLinearized, newState⟩
    if cacheContains model c.cache newCacheEntry then return { c with entry := c.links.next entry }
    else
      let hash := newLinearized.hash
      let links ← lift c.links entry matching
      return { c with
        links
        entry := links.next head
        linearized := newLinearized
        cache := c.cache.insert hash (c.cache.bucket hash ++ [newCacheEntry])
        calls := ⟨entry, c.state⟩ :: c.calls
        state := newState }
  else return { c with entry := c.links.next entry }

/-- The part of the loop that has `computePartial` as its condition. -/
def Search.computeLongest (c : Search σ) (computePartial : Bool) : Option Longest :=
  if computePartial then updateLongest nodes c.calls c.longest else some c.longest

/-- The body of the loop at a return, when calls were taken. -/
def Search.atReturn (c : Search σ) (computePartial : Bool) (callsTop : CallsEntry σ)
    (calls : List (CallsEntry σ)) : Option (Search σ) := do
  let longest ← c.computeLongest nodes computePartial
  let node ← nodes[callsTop.entry]?
  let linearized ← c.linearized.clear node.id
  let links ← unlift c.links callsTop.entry (← node.matching)
  return { c with
    longest
    state := callsTop.state
    linearized
    calls
    links
    entry := links.next callsTop.entry }

/-- One iteration of the loop, or the end of `checkSingle`. `kill` is what it loads. -/
def Search.iterate (computePartial : Bool) (head : Nat) (c : Search σ) (kill : Bool) :
    Option (Outcome σ) :=
  if c.links.next head = none then
    some (.returned true (c.longest.map fun _ => some (seq nodes c.calls)))
  else if kill then some (.returned false c.longest)
  else do
    let entry ← c.entry
    let node ← nodes[entry]?
    match node.matching with
    | some matching => return .running (← c.atCall model nodes head entry matching)
    | none =>
      match c.calls with
      | [] => return .returned false c.longest
      | callsTop :: calls => return .running (← c.atReturn nodes computePartial callsTop calls)

/-- The loop of `checkSingle`, as long as `kill` is not set, for at most `fuel` iterations. -/
def Search.loop (computePartial : Bool) (head : Nat) : Nat → Search σ → Option (Bool × Longest)
  | 0, _ => none
  | fuel + 1, c => do
    match ← c.iterate model nodes computePartial head false with
    | .running c => Search.loop computePartial head fuel c
    | .returned ok longest => return (ok, longest)

end

/-- The variables before the loop. -/
def Search.start (model : Model σ ι ο) (history : List (Entry ι ο)) : Search σ :=
  let l := makeLinkedEntries history
  let n := length l.links history.length l.root / 2
  { links := insertBefore l.links history.length l.root
    entry := l.root
    linearized := newBitset n
    longest := List.replicate n none
    state := model.init }

/-- `checkSingle`, as long as `kill` is not set. -/
def checkSingle (model : Model σ ι ο) (history : List (Entry ι ο)) (computePartial : Bool)
    (fuel : Nat) :
    Option (Bool × Longest) :=
  (Search.start model history).loop model (makeLinkedEntries history).nodes computePartial
    history.length fuel

end DistLabs.Porcupine
