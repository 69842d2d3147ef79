import Mathlib.Algebra.Order.Ring.Nat

/-! Readers of a binary format with fixed-width little-endian numbers: lengths take eight bytes and stand
in front of what they count, alternatives are told apart by four bytes.  What is left over is ignored. -/
namespace ModelGateway.Bincode
open List

abbrev Bytes := List UInt8

def toLeBytes : Nat → Nat → Bytes
  | 0, _ => []
  | width + 1, number => UInt8.ofNat number :: toLeBytes width (number / 256)

def fromLeBytes : Bytes → Nat
  | [] => 0
  | byte :: rest => byte.toNat + 256 * fromLeBytes rest

/-- Takes what it reads from the front of the bytes. -/
abbrev Reader := StateT Bytes Option

namespace Reader
variable {α : Type}

def bytes (count : Nat) : Reader Bytes := fun input =>
  if count ≤ input.length then some (input.splitAt count) else none

def uint (width : Nat) : Reader Nat := fromLeBytes <$> bytes width

/-- Bytes with their number in front. -/
def blob : Reader Bytes := uint 8 >>= bytes

/-- A text in UTF-8 with the number of its bytes in front. -/
def text : Reader (List Char) := do
  let content ← blob
  match (ByteArray.mk content.toArray).utf8Decode? with
  | some chars => pure chars.toList
  | none => failure

def times (item : Reader α) : Nat → Reader (List α)
  | 0 => pure []
  | count + 1 => do return (← item) :: (← times item count)

def vec (item : Reader α) : Reader (List α) := uint 8 >>= times item

/-- What stands at the front of the bytes. -/
def decode (reader : Reader α) (input : Bytes) : Option α := (reader.run input).map Prod.fst

end Reader

theorem fromLeBytes_toLeBytes (width number : Nat) : fromLeBytes (toLeBytes width number) = number % 256 ^ width := by
  induction width generalizing number with
  | zero => rw [pow_zero, Nat.mod_one, toLeBytes, fromLeBytes]
  | succ width ih =>
    rw [toLeBytes, fromLeBytes, ih, UInt8.toNat_ofNat', pow_succ' 256]
    exact Nat.mod_mul.symm

theorem length_toLeBytes (width number : Nat) : (toLeBytes width number).length = width := by
  induction width generalizing number with
  | zero => rfl
  | succ width ih => rw [toLeBytes, length_cons, ih]

namespace Reader

theorem run_uint {width number : Nat} (small : number < 256 ^ width) (rest : Bytes) :
    (uint width).run (toLeBytes width number ++ rest) = some (number, rest) := by
  have length := length_toLeBytes width number
  have enough : width ≤ (toLeBytes width number ++ rest).length := by
    rw [length_append, length]
    omega
  have read : (bytes width).run (toLeBytes width number ++ rest) = some (toLeBytes width number, rest) := by
    refine (if_pos enough).trans ?_
    rw [splitAt_eq, take_left' length, drop_left' length]
  rw [uint, StateT.run_map, read, Option.map_eq_map, Option.map_some, fromLeBytes_toLeBytes, Nat.mod_eq_of_lt small]

theorem run_vec_alone {α : Type} {item : Reader α} (fails : item.run [] = none) {number : Nat}
    (small : number < 256 ^ 8) :
    (vec item).run (toLeBytes 8 number) = if number = 0 then some ([], []) else none := by
  have read := run_uint small []
  rw [append_nil] at read
  rw [vec, StateT.run_bind, read]
  cases number with
  | zero => rfl
  | succ count =>
    change (times item (count + 1)).run [] = none
    rw [times, StateT.run_bind, fails]
    rfl

end Reader
end ModelGateway.Bincode
