import Mathlib.Data.List.Basic

/-!
# The functions of `bitset.go`

A set of small numbers, 64 of them in a word. `none` is an index out of range, which panics.
-/

namespace DistLabs.Porcupine

/-- `bitset`. -/
abbrev Bitset := List (BitVec 64)

/-- `newBitset`. -/
def newBitset (bits : Nat) : Bitset :=
  let extra := if bits % 64 ≠ 0 then 1 else 0
  List.replicate (bits / 64 + extra) 0

namespace Bitset

variable (b : Bitset) (pos : Nat)

/-- `set`. -/
def set : Option Bitset := do
  let v ← b[pos / 64]?
  return List.set b (pos / 64) (v ||| (1#64 <<< (pos % 64)))

/-- `clear`. -/
def clear : Option Bitset := do
  let v ← b[pos / 64]?
  return List.set b (pos / 64) (v &&& ~~~ (1#64 <<< (pos % 64)))

/-- `get`. -/
def get : Option Bool := do
  let v ← b[pos / 64]?
  return v &&& (1#64 <<< (pos % 64)) ≠ 0

/-- `popcnt`. -/
def popcnt : Nat := b.foldl (fun total v => total + v.cpop.toNat) 0

/-- `hash`. -/
def hash : BitVec 64 := b.foldl (fun hash v => hash ^^^ v) (.ofNat 64 b.popcnt)

/-- `equals`. -/
def equals (b2 : Bitset) : Bool :=
  b.length = b2.length ∧ ∀ i < b.length, b[i]? = b2[i]?

variable {b pos} {b' : Bitset} {q : Nat}

/-! ## Words -/

/-- The only bit of a shifted one. -/
theorem getLsbD_one_shiftLeft {j : Nat} (i : Nat) (hj : j < 64) :
    (1#64 <<< i).getLsbD j = decide (j = i) := by
  simp only [BitVec.getLsbD_shiftLeft, BitVec.getLsbD_one, hj, decide_true, Bool.true_and]
  rw [Bool.eq_iff_iff]
  simp only [Bool.and_eq_true, Bool.not_eq_true', decide_eq_false_iff_not, decide_eq_true_iff]
  omega

/-- The test of `get`. -/
theorem and_one_shiftLeft_ne_zero {i : Nat} (v : BitVec 64) (hi : i < 64) :
    (v &&& (1#64 <<< i) ≠ 0) ↔ v.getLsbD i = true := by
  constructor
  · intro hne
    by_contra hv
    refine hne (BitVec.eq_of_getLsbD_eq fun j hj => ?_)
    rw [BitVec.getLsbD_and, getLsbD_one_shiftLeft i hj]
    rcases eq_or_ne j i with rfl | h
    · simp [hv]
    · simp [h]
  · intro hv hzero
    have hbit := congrArg (BitVec.getLsbD · i) hzero
    simp only [BitVec.getLsbD_and, getLsbD_one_shiftLeft i hi, hv] at hbit
    simp at hbit

/-- A bit is found in its word. -/
theorem get_eq : b.get pos = b[pos / 64]?.map (·.getLsbD (pos % 64)) := by
  cases h : b[pos / 64]? with
  | none => simp [get, h]
  | some v =>
    have hiff := and_one_shiftLeft_ne_zero v (Nat.mod_lt pos (show 64 > 0 by decide))
    simp only [get, h, Option.bind_eq_bind, Option.bind_some, Option.pure_def, Option.map_some]
    rw [Option.some.injEq, Bool.eq_iff_iff, decide_eq_true_iff, hiff]

/-! ## Sets -/

/-- All bits of a new set are clear. -/
theorem get_newBitset {bits : Nat} (h : pos < bits) : (newBitset bits).get pos = some false := by
  have hlt : pos / 64 < bits / 64 + if bits % 64 ≠ 0 then 1 else 0 := by
    split <;> omega
  rw [get_eq, newBitset, List.getElem?_replicate, if_pos hlt]
  simp

/-- A bit that is there can be set. -/
theorem isSome_set (h : (b.get pos).isSome) : ∃ b', b.set pos = some b' := by
  rw [get_eq, Option.isSome_map] at h
  obtain ⟨v, hv⟩ := Option.isSome_iff_exists.1 h
  exact ⟨_, by rw [set, hv]; rfl⟩

/-- Setting a bit changes no other bit. -/
theorem get_set (h : b.set pos = some b') : b'.get q = if q = pos then some true else b.get q := by
  obtain ⟨v, hv, heq⟩ := Option.bind_eq_some_iff.1 h
  cases heq
  have hlt := (List.getElem?_eq_some_iff.1 hv).1
  rw [get_eq, get_eq, List.getElem?_set]
  by_cases hmajor : pos / 64 = q / 64
  · rw [if_pos hmajor, if_pos hlt, ← hmajor, hv]
    simp only [Option.map_some, BitVec.getLsbD_or]
    rw [getLsbD_one_shiftLeft _ (Nat.mod_lt _ (by decide))]
    rcases eq_or_ne q pos with rfl | hne
    · simp
    · have : q % 64 ≠ pos % 64 := by omega
      simp [hne, this]
  · rw [if_neg hmajor, if_neg (by rintro rfl; exact hmajor rfl)]

/-- Clearing a bit that was set before takes it back. -/
theorem clear_set (h : b.set pos = some b') (hnot : b.get pos = some false) :
    b'.clear pos = some b := by
  obtain ⟨v, hv, heq⟩ := Option.bind_eq_some_iff.1 h
  cases heq
  have hlt := (List.getElem?_eq_some_iff.1 hv).1
  have hword : (v ||| (1#64 <<< (pos % 64))) &&& ~~~ (1#64 <<< (pos % 64)) = v := by
    rw [get_eq, hv] at hnot
    refine BitVec.eq_of_getLsbD_eq fun j hj => ?_
    simp only [BitVec.getLsbD_and, BitVec.getLsbD_or, BitVec.getLsbD_not, hj, decide_true,
      Bool.true_and, getLsbD_one_shiftLeft _ hj]
    rcases eq_or_ne j (pos % 64) with rfl | hne
    · simpa using (Option.some.inj hnot).symm
    · simp [hne]
  simp only [clear, List.getElem?_set_self hlt, Option.bind_eq_bind, Option.bind_some,
    Option.pure_def, List.set_set, hword]
  obtain ⟨_, rfl⟩ := List.getElem?_eq_some_iff.1 hv
  rw [List.set_getElem_self]

/-- `equals` compares all words. -/
theorem equals_iff : b.equals b' = true ↔ b = b' := by
  rw [equals, decide_eq_true_iff]
  constructor
  · rintro ⟨hlen, heq⟩
    refine List.ext_getElem? fun i => ?_
    by_cases hi : i < b.length
    · exact heq i hi
    · rw [List.getElem?_eq_none (Nat.not_lt.1 hi), List.getElem?_eq_none (hlen ▸ Nat.not_lt.1 hi)]
  · rintro rfl
    exact ⟨rfl, fun _ _ => rfl⟩

end Bitset

end DistLabs.Porcupine
