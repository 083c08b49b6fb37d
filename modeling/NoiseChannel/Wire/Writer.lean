import NoiseChannel.Link.Error
import NoiseChannel.Text
import NoiseChannel.Wire.Format

/-!
# Writing fields

A writer appends fields to an area lent by its caller. Its failure is sticky: once something does
not fit, every further call does nothing, and the caller asks once at the end. An embedded message
is opened with a placeholder of one byte for its length; closing it moves its contents up if the
length turns out to need two or three bytes.
-/

namespace NoiseChannel

/-- Appends fields to a lent area. -/
structure Writer where
  area : Bytes
  /-- How many bytes have been written. -/
  pos : Nat
  /-- Whether something did not fit. -/
  failed : Bool
deriving DecidableEq, Repr

namespace Writer

/-- Where the length of an embedded message stands, while the message is being written. -/
structure Mark where
  /-- The index of the placeholder. -/
  pos : Nat
deriving DecidableEq, Repr

/-- The longest embedded message that can be closed. -/
def maxEmbedded : Nat := 0xffff

/-- A writer at the front of `area`. -/
def new (area : Bytes) : Writer := ⟨area, 0, false⟩

/-- The length of what has been written, unless something failed. -/
def finish (w : Writer) : Except LinkError Nat := if w.failed then .error .encoding else .ok w.pos

/-- The bytes that have been written, unless something failed. -/
def written (w : Writer) : Except LinkError Bytes := w.finish.map fun n => w.area.take n

/-- The writer after something did not fit. -/
def fail (w : Writer) : Writer := { w with failed := true }

/-- Appends as many of the bytes as fit, and fails if that is not all of them. -/
def push (w : Writer) (bytes : Bytes) : Writer :=
  if w.failed then w
  else
    let fitting := bytes.take (w.area.length - w.pos)
    { area := w.area.overwrite w.pos fitting
      pos := w.pos + fitting.length
      failed := fitting.length < bytes.length }

/-- Appends all of the bytes, or none of them and fails. -/
def pushWhole (w : Writer) (bytes : Bytes) : Writer :=
  if w.failed then w
  else if w.area.length < w.pos + bytes.length then w.fail
  else { w with area := w.area.overwrite w.pos bytes, pos := w.pos + bytes.length }

def pushVarint (w : Writer) (n : Nat) : Writer := w.push (Varint.encode n)

/-! ## Fields -/

def addNumber (w : Writer) (tag : UInt8) (n : Nat) : Writer :=
  (w.pushVarint (WireKind.varint.header tag)).pushVarint n

def addBool (w : Writer) (tag : UInt8) (b : Bool) : Writer := w.addNumber tag b.toNat

def addUInt32 (w : Writer) (tag : UInt8) (n : UInt32) : Writer := w.addNumber tag n.toNat

def addUInt64 (w : Writer) (tag : UInt8) (n : UInt64) : Writer := w.addNumber tag n.toNat

def addInt32 (w : Writer) (tag : UInt8) (z : Int32) : Writer :=
  w.addNumber tag (Varint.zigzag z.toInt)

def addInt64 (w : Writer) (tag : UInt8) (z : Int64) : Writer :=
  w.addNumber tag (Varint.zigzag z.toInt)

def addBytes (w : Writer) (tag : UInt8) (bytes : Bytes) : Writer :=
  ((w.pushVarint (WireKind.lengthDelimited.header tag)).pushVarint bytes.length).pushWhole bytes

def addString (w : Writer) (tag : UInt8) (s : String) : Writer := w.addBytes tag (.ofString s)

/-! ## Embedded messages -/

/-- Opens an embedded message under `tag`. -/
def startEmbedded (w : Writer) (tag : UInt8) : Mark × Writer :=
  let w := w.pushVarint (WireKind.lengthDelimited.header tag)
  (⟨w.pos⟩, w.push [0])

/-- How many bytes more than one the length of an embedded message takes, if the message is not too
long. -/
def extraLength? (length : Nat) : Option Nat :=
  if length < 0x80 then some 0
  else if length < 0x4000 then some 1
  else if length ≤ maxEmbedded then some 2
  else none

/-- Closes the embedded message that was opened at `mark`: fills in its length, after its contents
have been moved up where the length takes more than one byte. -/
def endEmbedded (w : Writer) (mark : Mark) : Writer :=
  if w.failed then w
  else if w.pos ≤ mark.pos then w.fail
  else
    let contents := (w.area.take w.pos).drop (mark.pos + 1)
    match extraLength? contents.length with
    | none => w.fail
    | some extra =>
      if w.area.length < w.pos + extra then w.fail
      else
        { w with
          area := w.area.overwrite mark.pos (Varint.encode contents.length ++ contents)
          pos := w.pos + extra }

end Writer

end NoiseChannel
