import DistLabs.Lib.Go

/-!
# Tables of requests

A replicated service remembers the largest request id of every client, so that a request that
arrives again is recognised. `enterRequest` is the one way in which such a table changes: ids only
grow (`enterRequest_le`), and what is in the table was entered (`mem_enterRequest`).
-/

namespace DistLabs.Lib

/-- Enter request `r` of client `c`, unless the client has made a later one. -/
def enterRequest (m : GoMap Int Int) (c r : Int) : GoMap Int Int :=
  match m[c]? with
  | some last => if last < r then m.insert c r else m
  | none => m.insert c r

variable {m : GoMap Int Int} {c c' r r' : Int}

/-- The new entry is there, or the client has made a later request. -/
theorem enterRequest_cases (m : GoMap Int Int) (c r : Int) :
    (enterRequest m c r = m.insert c r ∧ ∀ last ∈ m[c]?, last ≤ r) ∨
      (enterRequest m c r = m ∧ ∃ last ∈ m[c]?, r ≤ last) := by
  unfold enterRequest
  split
  · next last hlast =>
    split
    · next hlt =>
      refine .inl ⟨rfl, fun last' hlast' => ?_⟩
      rw [hlast] at hlast'
      cases hlast'
      exact hlt.le
    · next hge => exact .inr ⟨rfl, last, hlast, not_lt.1 hge⟩
  · next hnone =>
    refine .inl ⟨rfl, fun last hlast => ?_⟩
    rw [hnone] at hlast
    cases hlast

/-- A larger id may replace an entry. -/
theorem le_insertRequest (hmax : ∀ last ∈ m[c]?, last ≤ r) (hr : r' ∈ m[c']?) :
    ∃ last ∈ (m.insert c r)[c']?, r' ≤ last := by
  rw [GoMap.getElem?_insert]
  split
  · next heq =>
    rw [heq] at hr
    exact ⟨r, rfl, hmax r' hr⟩
  · exact ⟨r', hr, le_rfl⟩

/-- Entries are not lost, and ids only grow. -/
theorem enterRequest_le (hr : r' ∈ m[c']?) : ∃ last ∈ (enterRequest m c r)[c']?, r' ≤ last := by
  rcases enterRequest_cases m c r with ⟨heq, hmax⟩ | ⟨heq, -⟩
  · rw [heq]
    exact le_insertRequest hmax hr
  · rw [heq]
    exact ⟨r', hr, le_rfl⟩

/-- The request is known from now on. -/
theorem enterRequest_known (m : GoMap Int Int) (c r : Int) :
    ∃ last ∈ (enterRequest m c r)[c]?, r ≤ last := by
  rcases enterRequest_cases m c r with ⟨heq, -⟩ | ⟨heq, hknown⟩
  · rw [heq, GoMap.getElem?_insert, if_pos rfl]
    exact ⟨r, rfl, le_rfl⟩
  · rw [heq]
    exact hknown

/-- A request that is known is not entered. -/
theorem enterRequest_of_known (h : ∃ last ∈ m[c]?, r ≤ last) : enterRequest m c r = m := by
  obtain ⟨last, hlast, hle⟩ := h
  unfold enterRequest
  rw [Option.mem_def.1 hlast]
  exact if_neg (not_lt.2 hle)

/-- The table has what it had, and the request. -/
theorem mem_enterRequest (h : r' ∈ (enterRequest m c r)[c']?) : r' ∈ m[c']? ∨ c = c' ∧ r = r' := by
  rcases enterRequest_cases m c r with ⟨heq, -⟩ | ⟨heq, -⟩
  · rw [heq, Option.mem_def, GoMap.getElem?_insert] at h
    split at h
    · next hc =>
      cases h
      exact .inr ⟨hc.symm, rfl⟩
    · exact .inl h
  · rw [heq] at h
    exact .inl h

end DistLabs.Lib
