import DistLabs.Lib.Go

/-!
# Strings that are not UTF-8

A Go string may hold any bytes. `encoding/json` takes a string apart into runes and writes U+FFFD
for every byte at which no rune begins, so that decoding gives back the coerced string
(`coerceUtf8`) and not the string itself. A string that is UTF-8 comes back as it was
(`coerceUtf8_of_valid`).
-/

namespace DistLabs.Lib

/-- The bytes of U+FFFD. -/
def runeError : GoString := [0xEF, 0xBF, 0xBD]

/-- How many bytes follow the first byte of a rune, and the bounds of the first one of them.
`none`: no rune begins with the byte. -/
def runeTail (b : UInt8) : Option (Nat × UInt8 × UInt8) :=
  if b < 0x80 then some (0, 0x80, 0xBF)
  else if b < 0xC2 then none
  else if b < 0xE0 then some (1, 0x80, 0xBF)
  else if b = 0xE0 then some (2, 0xA0, 0xBF)
  else if b = 0xED then some (2, 0x80, 0x9F)
  else if b < 0xF0 then some (2, 0x80, 0xBF)
  else if b = 0xF0 then some (3, 0x90, 0xBF)
  else if b < 0xF4 then some (3, 0x80, 0xBF)
  else if b = 0xF4 then some (3, 0x80, 0x8F)
  else none

/-- `utf8.DecodeRuneInString` of `b :: s`: how many bytes of `s` belong to the first rune. `none`
is `RuneError` of width 1. -/
def decodeRune (b : UInt8) (s : GoString) : Option Nat := do
  let (n, lo, hi) ← runeTail b
  let tail := s.take n
  if tail.length = n && tail.head?.all (fun c => lo ≤ c && c ≤ hi) &&
      tail.all (fun c => 0x80 ≤ c && c ≤ 0xBF) then some n
  else none

/-- The loop over the runes of a string, with `n` bytes of the current rune to go. -/
def coerceFrom : Nat → GoString → GoString
  | _, [] => []
  | n + 1, b :: s => b :: coerceFrom n s
  | 0, b :: s =>
    match decodeRune b s with
    | some n => b :: coerceFrom n s
    | none => runeError ++ coerceFrom 0 s

/-- What is left of a string when it has been encoded as JSON and decoded again. -/
def coerceUtf8 (s : GoString) : GoString := coerceFrom 0 s

/-- All runes of a string are right, with `n` bytes of the current rune to go. -/
def validFrom : Nat → GoString → Bool
  | _, [] => true
  | n + 1, _ :: s => validFrom n s
  | 0, b :: s =>
    match decodeRune b s with
    | some n => validFrom n s
    | none => false

/-- `utf8.ValidString`. -/
def validString (s : GoString) : Bool := validFrom 0 s

/-- No byte of a valid string is replaced. -/
theorem coerceFrom_of_valid {n : Nat} {s : GoString} (h : validFrom n s) : coerceFrom n s = s := by
  induction s generalizing n with
  | nil => cases n <;> rfl
  | cons b s ih =>
    cases n with
    | succ n => rw [coerceFrom, ih h]
    | zero =>
      rw [coerceFrom]
      rw [validFrom] at h
      split at h
      · exact congrArg (b :: ·) (ih h)
      · cases h

/-- **A string that is UTF-8** comes back as it was. -/
theorem coerceUtf8_of_valid {s : GoString} (h : validString s) : coerceUtf8 s = s :=
  coerceFrom_of_valid h

/-- A rune of three bytes is kept. Of one that ends too early, every byte is replaced. -/
example : coerceUtf8 [0xE2, 0x82, 0xAC, 0xE2, 0x82, 0x41] =
    [0xE2, 0x82, 0xAC] ++ runeError ++ runeError ++ [0x41] := by decide +kernel

end DistLabs.Lib
