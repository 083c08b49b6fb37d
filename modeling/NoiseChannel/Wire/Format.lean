import NoiseChannel.Bytes

/-!
# Numbers and headers on the wire

A number is written in base 128, lowest digit first, with the high bit set on every byte but the
last. Reading takes at most ten bytes and refuses what does not fit into 64 bits. Signed numbers are
folded onto the unsigned ones first, so that numbers near zero stay short. A field starts with a
header, a number that joins its tag to the kind of its value: a number, or a byte string behind its
length.
-/

namespace NoiseChannel

namespace Varint

/-- A number in base 128, in as few bytes as possible. -/
def encode (n : Nat) : Bytes :=
  if n < 128 then [UInt8.ofNat n] else UInt8.ofNat (n % 128 + 128) :: encode (n / 128)
termination_by n
decreasing_by omega

/-- The most bytes that a number may take. -/
def maxLength : Nat := 10

/-- Reads a number from the front of `bs`, whose first byte stands at a given place of the number.
Gives the number, if it is well formed, and how many bytes have been looked at. The byte at place
nine may only carry the highest bit. -/
def scan (place : Nat) : Bytes → Option Nat × Nat
  | [] => (none, 0)
  | b :: bs =>
    if place = maxLength - 1 && 1 < b then (none, 1)
    else if b < 128 then (some b.toNat, 1)
    else
      let (rest, used) := scan (place + 1) bs
      (rest.map fun n => b.toNat % 128 + 128 * n, used + 1)

/-- Folds the integers onto the natural numbers: `0, -1, 1, -2, 2, …` become `0, 1, 2, 3, 4, …`. -/
def zigzag (z : Int) : Nat := if z < 0 then 2 * (-z).toNat - 1 else 2 * z.toNat

/-- Unfolds what `zigzag` has folded. -/
def unzigzag (n : Nat) : Int := if n % 2 = 0 then Int.ofNat (n / 2) else -Int.ofNat (n / 2) - 1

/-- Unfolding gives back what was folded. -/
theorem unzigzag_zigzag (z : Int) : unzigzag (zigzag z) = z := by
  unfold unzigzag zigzag
  split <;> split <;> simp only [Int.ofNat_eq_natCast] <;> omega

end Varint

/-! ## Kinds of fields -/

/-- How the value of a field is written. -/
inductive WireKind where
  /-- As a number. -/
  | varint
  /-- As a byte string behind its length. -/
  | lengthDelimited
deriving DecidableEq, Repr

namespace WireKind

def name : WireKind → String
  | varint => "Varint"
  | lengthDelimited => "LengthDelimited"

/-- The kind's number in a header. -/
def code : WireKind → Nat
  | varint => 0
  | lengthDelimited => 2

def ofCode? : Nat → Option WireKind
  | 0 => some varint
  | 2 => some lengthDelimited
  | _ => none

/-- The header of a field of this kind with a given tag. -/
def header (kind : WireKind) (tag : UInt8) : Nat := 8 * tag.toNat + kind.code

end WireKind

end NoiseChannel
