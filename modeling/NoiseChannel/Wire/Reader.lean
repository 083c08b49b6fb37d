import NoiseChannel.Link.Error
import NoiseChannel.Text
import NoiseChannel.Wire.Format

/-!
# Reading fields

A reader walks the fields of a message. `next` advances to a field and gives its tag; the calls
after it read the field's value in the form that the caller expects, or descend into it as an
embedded message. Failure is sticky: after malformed input or a call that does not suit the field,
every further call gives nothing and changes nothing, and the caller asks once at the end.
-/

namespace NoiseChannel

/-- Walks the fields of a message. -/
structure Reader where
  input : Bytes
  /-- The index of the next byte to be read. -/
  pos : Nat
  /-- The index at which the message being read ends. -/
  stop : Nat
  /-- The index at which the present byte string begins. -/
  start : Nat
  /-- The present number, or the length of the present byte string. -/
  value : Nat
  /-- The kind of the present field. -/
  kind : Option WireKind
  /-- Whether something was malformed or did not suit. -/
  failed : Bool
deriving DecidableEq, Repr

namespace Reader

/-- Where the enclosing message ends, while an embedded one is being read. -/
structure Boundary where
  /-- The index of the end. -/
  pos : Nat
deriving DecidableEq, Repr

/-- A reader at the front of `input`. -/
def new (input : Bytes) : Reader := ⟨input, 0, input.length, 0, 0, none, false⟩

/-- Refused if something failed on the way. -/
def finish (r : Reader) : Except LinkError Unit := if r.failed then .error .malformed else .ok ()

def fail (r : Reader) : Reader := { r with failed := true }

/-! ## Advancing -/

/-- Reads a number of at most ten bytes before the end of the message. -/
def number (r : Reader) : Option Nat × Reader :=
  let ahead := (r.input.drop r.pos).take (min Varint.maxLength (r.stop - r.pos))
  match Varint.scan 0 ahead with
  | (some n, used) => (some n, { r with pos := r.pos + used })
  | (none, used) => (none, { r with pos := r.pos + used }.fail)

/-- Reads the value of a field of a given kind. -/
def fieldValue (r : Reader) (kind : WireKind) : Reader :=
  match r.number with
  | (none, r) => r
  | (some n, r) =>
    match kind with
    | .varint => { r with value := n, kind := some .varint }
    | .lengthDelimited =>
      if r.stop - r.pos < n then r.fail
      else { r with value := n, start := r.pos, pos := r.pos + n, kind := some .lengthDelimited }

/-- Advances to the next field and gives its tag; nothing at the end of the message and where the
input is malformed. -/
def next (r : Reader) : Option UInt8 × Reader :=
  if r.failed || r.stop ≤ r.pos then (none, r)
  else
    match r.number with
    | (none, r) => (none, r)
    | (some header, r) =>
      if 2048 ≤ header then (none, r.fail)
      else
        match WireKind.ofCode? (header % 8) with
        | none => (none, r.fail)
        | some kind =>
          let r := r.fieldValue kind
          (if r.failed then none else some (UInt8.ofNat (header / 8)), r)

/-! ## Values -/

/-- The present field's number. Fails if the field has none. -/
def readNumber (r : Reader) : Option Nat × Reader :=
  if r.failed then (none, r)
  else if r.kind = some .varint then (some r.value, r)
  else (none, r.fail)

/-- The present field's number, if it has 32 bits; zero and a failure if it does not. -/
def readShortNumber (r : Reader) : Nat × Reader :=
  match r.readNumber with
  | (some n, r) => if n < UInt32.size then (n, r) else (0, r.fail)
  | (none, r) => (0, r)

/-- The present field as a truth value: true for every number but zero. -/
def readBool (r : Reader) : Bool × Reader :=
  let (n, r) := r.readNumber
  (n.any (· ≠ 0), r)

def readUInt32 (r : Reader) : UInt32 × Reader :=
  let (n, r) := r.readShortNumber
  (UInt32.ofNat n, r)

def readUInt64 (r : Reader) : UInt64 × Reader :=
  let (n, r) := r.readNumber
  (UInt64.ofNat (n.getD 0), r)

def readInt32 (r : Reader) : Int32 × Reader :=
  let (n, r) := r.readShortNumber
  (Int32.ofInt (Varint.unzigzag n), r)

def readInt64 (r : Reader) : Int64 × Reader :=
  let (n, r) := r.readNumber
  (Int64.ofInt (Varint.unzigzag (n.getD 0)), r)

def readBytes (r : Reader) : Bytes × Reader :=
  if r.failed then ([], r)
  else if r.kind = some .lengthDelimited then ((r.input.drop r.start).take r.value, r)
  else ([], r.fail)

/-- The present field as a text. Fails if its bytes are not well-formed UTF-8. -/
def readString (r : Reader) : String × Reader :=
  let (bytes, r) := r.readBytes
  match bytes.toString? with
  | some s => (s, r)
  | none => ("", r.fail)

/-! ## Embedded messages -/

/-- Descends into the present byte string and gives the end of the enclosing message. -/
def startEmbedded (r : Reader) : Boundary × Reader :=
  if r.failed then (⟨0⟩, r)
  else if r.kind = some .lengthDelimited then
    (⟨r.stop⟩, { r with stop := r.pos, pos := r.start, kind := none })
  else (⟨0⟩, r.fail)

/-- Returns to the enclosing message, past whatever of the embedded one has not been read. -/
def endEmbedded (r : Reader) (outer : Boundary) : Reader :=
  if r.failed then r
  else if outer.pos < r.stop then r.fail
  else { r with pos := r.stop, stop := outer.pos, kind := none }

/-! ## Walking a whole message -/

/-- Lets `visit` see each field in turn, at most `fuel` of them. -/
def visitUpTo {σ : Type} (visit : UInt8 → σ → Reader → σ × Reader) : Nat → σ → Reader → σ × Reader
  | 0, s, r => (s, r)
  | fuel + 1, s, r =>
    match r.next with
    | (none, r) => (s, r)
    | (some tag, r) =>
      let (s, r) := visit tag s r
      visitUpTo visit fuel s r

/-- Lets `visit` see each field of the message in turn, with its tag. Every field takes at least two
bytes, so there are fewer fields than bytes. -/
def visitAll {σ : Type} (visit : UInt8 → σ → Reader → σ × Reader) (s : σ) (r : Reader) :
    σ × Reader :=
  visitUpTo visit (r.stop - r.pos + 1) s r

end Reader

end NoiseChannel
