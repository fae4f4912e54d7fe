import DistLabs.Lib.ApplyStream
import DistLabs.Lib.Go

/-!
# Encodings in a stream

A `Wire` encodes values into bytes so that a decoder knows where each value ends: values are
encoded one after the other, and decoded one after the other. `prod` is such a sequence of two. The
other combinators give encodings of numbers, strings and maps, of which only the laws matter.
-/

namespace DistLabs.Lib

/-- An encoding whose decoder leaves what follows. -/
structure Wire (α : Type) where
  encode : α → List UInt8
  decode : List UInt8 → Option (α × List UInt8)
  decode_append : ∀ a rest, decode (encode a ++ rest) = some (a, rest)
  encode_ne_nil : ∀ a, encode a ≠ []

namespace Wire

variable {α β : Type}

/-- One value after the other. -/
def prod (u : Wire α) (v : Wire β) : Wire (α × β) where
  encode x := u.encode x.1 ++ v.encode x.2
  decode data := do
    let (a, data) ← u.decode data
    let (b, data) ← v.decode data
    return ((a, b), data)
  decode_append x rest := by
    simp only [List.append_assoc, u.decode_append, v.decode_append, Option.bind_eq_bind,
      Option.bind_some, Option.pure_def]
  encode_ne_nil x h := u.encode_ne_nil x.1 (List.append_eq_nil_iff.1 h).1

/-- A value is encoded as one of another type. -/
def via (u : Wire β) (f : α → β) (g : β → α) (hgf : ∀ a, g (f a) = a) : Wire α where
  encode a := u.encode (f a)
  decode data := (u.decode data).map fun x => (g x.1, x.2)
  decode_append a rest := by
    rw [u.decode_append, Option.map_some, hgf]
  encode_ne_nil a := u.encode_ne_nil (f a)

/-- Only what is at the beginning is decoded. -/
def codec (u : Wire α) : Codec α (List UInt8) where
  encode := u.encode
  decode data := (u.decode data).map (·.1)
  decode_encode a := by
    have h := u.decode_append a []
    rw [List.append_nil] at h
    rw [h]
    rfl

/-! ## Numbers, strings and maps -/

/-- A byte is written as it is. -/
def byte : Wire UInt8 where
  encode b := [b]
  decode
    | [] => none
    | b :: data => some (b, data)
  decode_append _ _ := rfl
  encode_ne_nil _ := List.cons_ne_nil _ _

/-- A number in unary. -/
def encodeNat : Nat → List UInt8
  | 0 => [0]
  | n + 1 => 1 :: encodeNat n

/-- Read a number in unary: as many ones as the number, and a zero. -/
def decodeNat : List UInt8 → Option (Nat × List UInt8)
  | [] => none
  | b :: data => if b = 0 then some (0, data) else (decodeNat data).map fun x => (x.1 + 1, x.2)

/-- Reading a number inverts writing it, whatever follows. -/
theorem decodeNat_append (n : Nat) (rest : List UInt8) :
    decodeNat (encodeNat n ++ rest) = some (n, rest) := by
  induction n with
  | zero => rfl
  | succ n ih =>
    rw [encodeNat, List.cons_append, decodeNat, if_neg (by decide), ih]
    rfl

/-- The wire format of natural numbers. -/
def nat : Wire Nat where
  encode := encodeNat
  decode := decodeNat
  decode_append := decodeNat_append
  encode_ne_nil n := by
    cases n <;> exact List.cons_ne_nil _ _

/-- The wire format of integers: the positive part and the negative part. -/
def int : Wire Int :=
  (nat.prod nat).via (fun i => (i.toNat, (-i).toNat)) (fun x => x.1 - x.2) fun i => by omega

/-- Decode so many values. -/
def decodeAll (u : Wire α) : Nat → List UInt8 → Option (List α × List UInt8)
  | 0, data => some ([], data)
  | n + 1, data => do
    let (a, data) ← u.decode data
    let (l, data) ← decodeAll u n data
    return (a :: l, data)

/-- Reading as many values as were written inverts writing them. -/
theorem decodeAll_append (u : Wire α) (l : List α) (rest : List UInt8) :
    u.decodeAll l.length (l.flatMap u.encode ++ rest) = some (l, rest) := by
  induction l with
  | nil => rfl
  | cons a l ih =>
    simp only [List.length_cons, decodeAll, List.flatMap_cons, List.append_assoc,
      u.decode_append, ih, Option.bind_eq_bind, Option.bind_some, Option.pure_def]

/-- The length, and then the elements. -/
def list (u : Wire α) : Wire (List α) where
  encode l := nat.encode l.length ++ l.flatMap u.encode
  decode data := do
    let (n, data) ← nat.decode data
    u.decodeAll n data
  decode_append l rest := by
    simp only [List.append_assoc, nat.decode_append, Option.bind_eq_bind, Option.bind_some,
      decodeAll_append]
  encode_ne_nil l h := nat.encode_ne_nil _ (List.append_eq_nil_iff.1 h).1

/-- The wire format of Go strings. -/
def goString : Wire GoString := byte.list

/-- The wire format of strings: the code points of their characters. -/
def string : Wire String :=
  nat.list.via (fun s => s.toList.map Char.toNat) (fun l => .ofList (l.map Char.ofNat)) fun s => by
    simp only [List.map_map, Function.comp_def, Char.ofNat_toNat, List.map_id',
      String.ofList_toList]

/-- The wire format of numbers below `n`. A number that is not below `n` cannot be read. -/
def fin (n : Nat) : Wire (Fin n) where
  encode i := nat.encode i
  decode data := do
    let (k, data) ← nat.decode data
    if h : k < n then return (⟨k, h⟩, data) else none
  decode_append i rest := by
    simp only [nat.decode_append, Option.bind_eq_bind, Option.bind_some, i.isLt, dite_true,
      Option.pure_def]
  encode_ne_nil i := nat.encode_ne_nil i

/-- An array of fixed length, of which every element is encoded. -/
def array [Inhabited α] (u : Wire α) (n : Nat) : Wire (Fin n → α) :=
  u.list.via List.ofFn (fun l i => l[i]?.getD default) fun f => by
    funext i
    simp only [List.getElem?_ofFn, Fin.getElem?_fin, i.isLt, dite_true, Option.getD_some]

section
variable [DecidableEq α] [Ord α] [Std.TransOrd α] [Std.LawfulEqOrd α]

/-- A map is determined by the list of its entries. -/
theorem ofList_toList (m : GoMap α β) : Std.ExtTreeMap.ofList m.toList compare = m := by
  refine Std.ExtTreeMap.ext_getElem? fun k => ?_
  cases hk : m[k]? with
  | some v =>
    exact Std.ExtTreeMap.getElem?_ofList_of_mem Std.ReflCmp.compare_self
      Std.ExtTreeMap.distinct_keys_toList (Std.ExtTreeMap.mem_toList_iff_getElem?_eq_some.2 hk)
  | none =>
    refine Std.ExtTreeMap.getElem?_ofList_of_contains_eq_false (Bool.eq_false_iff.2 fun hmem => ?_)
    obtain ⟨⟨k', v⟩, he, rfl⟩ := List.mem_map.1 (List.contains_iff_mem.1 hmem)
    rw [Std.ExtTreeMap.mem_toList_iff_getElem?_eq_some.1 he] at hk
    cases hk

/-- The entries of a map. -/
def goMap (u : Wire α) (v : Wire β) : Wire (GoMap α β) :=
  (u.prod v).list.via (fun m => m.toList) (fun l => Std.ExtTreeMap.ofList l compare) ofList_toList

end

end Wire

end DistLabs.Lib
