import NoiseChannel.Bytes

/-!
# Texts

Byte strings are spelled as texts in UTF-8 or in hexadecimal digits. Values are described on one
line: a record by its name and its fields in braces, with two dots at the end where fields are held
back, an optional value by `Some(…)` or `None`, a list in brackets.
-/

namespace NoiseChannel

namespace Bytes

/-! ## Byte strings as texts -/

/-- The UTF-8 bytes of a text. -/
def ofString (s : String) : Bytes := s.toByteArray.data.toList

/-- The text that the bytes spell in UTF-8, if they are well formed. -/
def toString? (bs : Bytes) : Option String := String.fromUTF8? ⟨bs.toArray⟩

/-- Bytes that spell a text are read as that text. -/
@[simp] theorem toString?_ofString (s : String) : toString? (ofString s) = some s := by
  simp [toString?, ofString, String.fromUTF8?, s.isValidUTF8, String.fromUTF8]

/-- Two lower-case hexadecimal digits for a byte. -/
def hexOfByte (b : UInt8) : String :=
  String.ofList [Nat.digitChar (b.toNat / 16), Nat.digitChar (b.toNat % 16)]

/-- Two lower-case hexadecimal digits for every byte. -/
def toHex (bs : Bytes) : String := String.join (bs.map hexOfByte)

/-- The value of a hexadecimal digit of either case. -/
def hexDigit? (c : Char) : Option Nat :=
  if c.isDigit then some (c.toNat - '0'.toNat)
  else if 'a' ≤ c ∧ c ≤ 'f' then some (c.toNat - 'a'.toNat + 10)
  else if 'A' ≤ c ∧ c ≤ 'F' then some (c.toNat - 'A'.toNat + 10)
  else none

/-- The bytes that pairs of hexadecimal digits stand for. -/
def ofHexDigits? : List Char → Option Bytes
  | [] => some []
  | [_] => none
  | high :: low :: rest =>
    match hexDigit? high, hexDigit? low, ofHexDigits? rest with
    | some h, some l, some bs => some (UInt8.ofNat (16 * h + l) :: bs)
    | _, _, _ => none

/-- The bytes that a text spells in hexadecimal. -/
def ofHex? (s : String) : Option Bytes := ofHexDigits? s.toList

end Bytes

namespace Text

/-! ## One-line descriptions -/

/-- The parts, with a comma and a blank between them. -/
def commaSeparated (parts : List String) : String := String.intercalate ", " parts

/-- A record with some of its fields, given as pairs of name and text; `complete` if none is held
back. -/
def record (name : String) (fields : List (String × String)) (complete : Bool) : String :=
  let shown := fields.map fun (field, text) => field ++ ": " ++ text
  name ++ " \x7b " ++ commaSeparated (if complete then shown else shown ++ [".."]) ++ " \x7d"

/-- An optional value, its content described by `describe`. -/
def option {α : Type} (describe : α → String) : Option α → String
  | none => "None"
  | some a => "Some(" ++ describe a ++ ")"

/-- A list of descriptions. -/
def list (parts : List String) : String := "[" ++ commaSeparated parts ++ "]"

/-- A text between double quotes; names of this library hold no character that needs escaping. -/
def quoted (s : String) : String := "\"" ++ s ++ "\""

/-- A truth value. -/
def truth : Bool → String
  | true => "true"
  | false => "false"

end Text

end NoiseChannel
