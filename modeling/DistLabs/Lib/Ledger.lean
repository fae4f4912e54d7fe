import Mathlib.Data.List.Basic
import Mathlib.Order.Basic

/-!
# Ledgers: the logs of a sequence of leaders

Entries carry the term they were created in. `termAt l i` is the term of the `i`-th entry of a log,
counted from 1, and 0 at index 0. The leader of term `V` starts from a log of `base V` entries that
earlier leaders created and appends entries of term `V`; `ledger V` is that log. `LedgerOK` says
that such a family of logs is a tree: an entry's index and term determine everything before it.
-/

namespace DistLabs.Lib

/-- Types whose values carry the term they were created in. -/
class HasTerm (ε : Type) where
  term : ε → Nat

/-- The term and index of an entry. -/
structure Pos where
  term : Nat
  index : Nat
  deriving DecidableEq, Repr

/-- "At least as up to date": a later term, or the same term and no smaller an index. -/
instance : LE Pos := ⟨fun x y => x.term < y.term ∨ x.term = y.term ∧ x.index ≤ y.index⟩

/-- Positions are ordered by term, and by index within a term. -/
theorem Pos.le_def {x y : Pos} :
    x ≤ y ↔ x.term < y.term ∨ x.term = y.term ∧ x.index ≤ y.index := Iff.rfl

/-- Up-to-dateness is transitive. -/
theorem Pos.le_trans {x y z : Pos} (h₁ : x ≤ y) (h₂ : y ≤ z) : x ≤ z := by
  rw [Pos.le_def] at *
  omega

section
variable {ε : Type}

/-- Logs with the same first `j` entries have the same first `i` for `i ≤ j`. -/
theorem take_congr {l m : List ε} {i j : Nat} (h : l.take j = m.take j) (hi : i ≤ j) :
    l.take i = m.take i := by
  rw [show l.take i = (l.take j).take i by rw [List.take_take, Nat.min_eq_left hi], h,
    List.take_take, Nat.min_eq_left hi]

/-- Logs that agree on the first `i` entries, of which one has `i`, both have `i`. -/
theorem length_of_take_eq {l m : List ε} {i : Nat} (h : l.take i = m.take i) (hi : i ≤ l.length) :
    i ≤ m.length := by
  have := congrArg List.length h
  rw [List.length_take, List.length_take] at this
  omega

/-- What a non-empty rest of a log starts with. -/
theorem drop_eq_cons {l es : List ε} {e : ε} {k : Nat} (h : l.drop k = e :: es) :
    l[k]? = some e ∧ es = l.drop (k + 1) := by
  constructor
  · rw [← List.head?_drop, h, List.head?_cons]
  · rw [← List.tail_drop, h, List.tail_cons]

/-- A prefix of a log is one of its cuts. -/
theorem take_of_prefix {l m : List ε} {i : Nat} (h : l <+: m) (hi : i ≤ l.length) :
    m.take i = l.take i := by
  obtain ⟨r, rfl⟩ := h
  rw [List.take_append_of_le_length hi]

end

variable {ε : Type} [HasTerm ε]

/-- The term of the `i`-th entry, counted from 1; index 0 has term 0. -/
def termAt (l : List ε) : Nat → Nat
  | 0 => 0
  | i + 1 => (l[i]?).elim 0 HasTerm.term

@[simp] theorem termAt_zero (l : List ε) : termAt l 0 = 0 := rfl

/-- A cut does not change the terms it keeps. -/
theorem termAt_take {l : List ε} {i j : Nat} (h : i ≤ j) : termAt (l.take j) i = termAt l i := by
  cases i with
  | zero => rfl
  | succ i => simp [termAt, show i < j by omega]

/-- Logs with the same first `j` entries have the same terms up to `j`. -/
theorem termAt_congr {l m : List ε} {i j : Nat} (h : l.take j = m.take j) (hi : i ≤ j) :
    termAt l i = termAt m i := by
  rw [← termAt_take hi, h, termAt_take hi]

/-- Appending does not change the terms that were there. -/
theorem termAt_append {l m : List ε} {i : Nat} (h : i ≤ l.length) :
    termAt (l ++ m) i = termAt l i := by
  cases i with
  | zero => rfl
  | succ i => simp [termAt, List.getElem?_append_left (show i < l.length by omega)]

/-- The term of an entry that was appended. -/
theorem termAt_append_singleton (l : List ε) (e : ε) :
    termAt (l ++ [e]) (l.length + 1) = HasTerm.term e := by
  simp [termAt]

/-- A family of leaders' logs is a tree. -/
structure LedgerOK {ι : Type} (leader : Nat → Option ι) (ledger : Nat → List ε)
    (base : Nat → Nat) : Prop where
  /-- Term 0 has no leader. -/
  zero : leader 0 = none
  /-- A term without a leader has no log. -/
  nil : ∀ V, leader V = none → ledger V = []
  base_le : ∀ V, leader V ≠ none → base V ≤ (ledger V).length
  /-- A leader appends entries of its own term. -/
  own : ∀ V i, leader V ≠ none → base V < i → i ≤ (ledger V).length → termAt (ledger V) i = V
  /-- A leader starts from entries of earlier terms. -/
  low : ∀ V i, leader V ≠ none → i ≤ base V → termAt (ledger V) i < V
  /-- An entry's index and term determine the log up to it. -/
  tree : ∀ V i, i ≤ (ledger V).length →
    (ledger V).take i = (ledger (termAt (ledger V) i)).take i
  /-- Terms do not decrease along a log. -/
  mono : ∀ V i j, i ≤ j → j ≤ (ledger V).length → termAt (ledger V) i ≤ termAt (ledger V) j

/-- The position `x` occurs in the tree. -/
def ValidPos (ledger : Nat → List ε) (x : Pos) : Prop :=
  x.index ≤ (ledger x.term).length ∧ termAt (ledger x.term) x.index = x.term

/-- The log that ends at `x`. -/
def pathTo (ledger : Nat → List ε) (x : Pos) : List ε := (ledger x.term).take x.index

/-- Where the log `l` stands at index `i`. -/
def posAt (l : List ε) (i : Nat) : Pos := ⟨termAt l i, i⟩

section
variable {ι : Type} {leader : Nat → Option ι} {ledger : Nat → List ε} {base : Nat → Nat}

/-- The length of the log that ends at an occurring position. -/
theorem ValidPos.length_pathTo {x : Pos} (h : ValidPos ledger x) :
    (pathTo ledger x).length = x.index := by
  rw [pathTo, List.length_take]
  exact Nat.min_eq_left h.1

/-- The term along the log that ends at `x`. -/
theorem termAt_pathTo {x : Pos} {i : Nat} (hi : i ≤ x.index) :
    termAt (pathTo ledger x) i = termAt (ledger x.term) i := termAt_take hi

namespace LedgerOK

variable (h : LedgerOK leader ledger base)
include h

/-- Every index of a leader's log is an occurring position. -/
theorem validPos_posAt {V i : Nat} (hi : i ≤ (ledger V).length) :
    ValidPos ledger (posAt (ledger V) i) := by
  have ht := h.tree V i hi
  exact ⟨length_of_take_eq ht hi, (termAt_congr ht (Nat.le_refl i)).symm⟩

/-- The log that ends at an index of a leader's log is a cut of that log. -/
theorem pathTo_posAt {V i : Nat} (hi : i ≤ (ledger V).length) :
    pathTo ledger (posAt (ledger V) i) = (ledger V).take i := (h.tree V i hi).symm

/-- Only index 0 has term 0. -/
theorem index_eq_zero {x : Pos} (hx : ValidPos ledger x) (h0 : x.term = 0) : x.index = 0 := by
  have h1 := hx.1
  rw [h0, h.nil 0 h.zero] at h1
  simpa using h1

/-- The term of an occurring position other than index 0 has a leader. -/
theorem leader_of_valid {x : Pos} (hx : ValidPos ledger x) (h0 : x.term ≠ 0) :
    leader x.term ≠ none := by
  intro hn
  have h1 := hx.1
  rw [h.nil _ hn] at h1
  have : x.index = 0 := by simpa using h1
  have h2 := hx.2
  rw [this, termAt_zero] at h2
  exact h0 h2.symm

/-- An occurring position of term `V` other than 0 lies past the log that the leader of `V` started
from. -/
theorem base_lt_of_valid {x : Pos} (hx : ValidPos ledger x) (h0 : x.term ≠ 0) :
    base x.term < x.index := by
  have hl := h.leader_of_valid hx h0
  rcases Nat.lt_or_ge (base x.term) x.index with hlt | hge
  · exact hlt
  · have := h.low x.term x.index hl hge
    rw [hx.2] at this
    omega

/-- A term of an index of a leader's log is at most the leader's. -/
theorem termAt_le {V i : Nat} (hl : leader V ≠ none) (hi : i ≤ (ledger V).length) :
    termAt (ledger V) i ≤ V := by
  rcases Nat.lt_or_ge (base V) i with hlt | hge
  · exact Nat.le_of_eq (h.own V i hl hlt hi)
  · exact Nat.le_of_lt (h.low V i hl hge)

/-- Equal terms at an index give equal logs up to it. -/
theorem take_eq_of_termAt_eq {V W i : Nat} (hV : i ≤ (ledger V).length)
    (hW : i ≤ (ledger W).length) (ht : termAt (ledger V) i = termAt (ledger W) i) :
    (ledger V).take i = (ledger W).take i := by
  rw [h.tree V i hV, h.tree W i hW, ht]

/-- A position on the log that ends at `y` is at most as up to date as `y`. -/
theorem le_of_take_eq {T i : Nat} {y : Pos} (hy : ValidPos ledger y)
    (hT : termAt (ledger T) i = T) (hi : i ≤ y.index)
    (ht : (ledger y.term).take i = (ledger T).take i) : (⟨T, i⟩ : Pos) ≤ y := by
  have hterm : T ≤ y.term := by
    calc T = termAt (ledger y.term) i := by rw [termAt_congr ht (Nat.le_refl i), hT]
      _ ≤ termAt (ledger y.term) y.index := h.mono _ _ _ hi hy.1
      _ = y.term := hy.2
  rw [Pos.le_def]
  rcases Nat.lt_or_eq_of_le hterm with hlt | heq
  · exact .inl hlt
  · exact .inr ⟨heq, hi⟩

end LedgerOK

end

end DistLabs.Lib
