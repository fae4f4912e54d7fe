import Mathlib.Logic.Basic

/-!
# Windows onto an indexed sequence

A list that holds the elements of a sequence from some index on, the way a log does whose beginning
was compacted away. `window first l i` reads the list at an index of the sequence.
-/

namespace DistLabs.Lib

variable {β : Type} {first k i : Nat} {l r : List β} {b : β}

/-- The element at index `i` of a sequence of which `l` holds the elements from index `first`
on. -/
def window (first : Nat) (l : List β) (i : Nat) : Option β :=
  if i < first then none else l[i - first]?

/-- What a window shows at an index is in the list at the offset of the index. -/
theorem window_eq_some_iff : window first l i = some b ↔ first ≤ i ∧ l[i - first]? = some b := by
  rw [window]
  split
  · next hlt => exact ⟨nofun, fun h => absurd h.1 (Nat.not_le.2 hlt)⟩
  · next hge => exact ⟨fun h => ⟨Nat.le_of_not_lt hge, h⟩, And.right⟩

theorem window_add (first : Nat) (l : List β) (k : Nat) : window first l (first + k) = l[k]? := by
  rw [window, if_neg (Nat.not_lt.2 (Nat.le_add_right _ _)), Nat.add_sub_cancel_left]

/-- A window holds the indices from `first` on, as many as the list is long. -/
theorem bounds_of_window (h : window first l i = some b) : first ≤ i ∧ i < first + l.length := by
  obtain ⟨hle, hb⟩ := window_eq_some_iff.1 h
  have := (List.getElem?_eq_some_iff.1 hb).1
  omega

/-- A window shows something at every index from its first one to its end. -/
theorem exists_window (h : first ≤ i) (h' : i < first + l.length) :
    ∃ b, window first l i = some b := by
  have hlt : i - first < l.length := by omega
  exact ⟨l[i - first], window_eq_some_iff.2 ⟨h, List.getElem?_eq_getElem hlt⟩⟩

/-- Cutting a window before index `k` and appending `r`. -/
theorem window_splice (hk : first ≤ k) (hk' : k ≤ first + l.length) (r : List β) (i : Nat) :
    window first (l.take (k - first) ++ r) i = if i < k then window first l i else r[i - k]? := by
  have hlen : (l.take (k - first)).length = k - first := List.length_take_of_le (by omega)
  rcases Nat.lt_or_ge i first with hlt | hge
  · rw [if_pos (Nat.lt_of_lt_of_le hlt hk), window, window, if_pos hlt, if_pos hlt]
  rw [window, window, if_neg (Nat.not_lt.2 hge), if_neg (Nat.not_lt.2 hge),
    List.getElem?_append, hlen]
  split
  · next hik => rw [if_pos (by omega), List.getElem?_take_of_lt hik]
  · next hik =>
    rw [if_neg (by omega)]
    congr 1
    omega

end DistLabs.Lib
