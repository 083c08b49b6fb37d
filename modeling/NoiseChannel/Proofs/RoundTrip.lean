import Mathlib.Algebra.Group.Int.Defs
import NoiseChannel.Proofs.Walk

/-!
# Fields survive encoding

A reader that faces the bytes of a field reads the field and gets past its bytes, whatever follows:
for the header and the value by `next_encoding` and `readValue_content`, for whole trees of fields by
`readFields_eq`, in which an embedded message narrows the reader to its own bytes and closing it
widens the reader again. With what is known of the writer, writing and reading are inverse to each
other.
-/

namespace NoiseChannel

/-! ## Numbers -/

/-- Folding takes one bit more. -/
theorem Varint.zigzag_lt {z : Int} (k : Nat) (hlow : -2 ^ k ≤ z) (hhigh : z < 2 ^ k) :
    zigzag z < 2 * 2 ^ k := by
  have hpow : ((2 ^ k : Nat) : Int) = (2 : Int) ^ k := by exact_mod_cast rfl
  unfold zigzag
  split <;> omega

theorem Value.content_fits {v : Value} {tag : UInt8}
    (h : (v.content.encoding tag).length < 2 ^ 64) : v.content.Fits := by
  have hbytes : ∀ bs : Bytes, ((Content.bytes bs).encoding tag).length < 2 ^ 64 →
      bs.length < 2 ^ 64 := by
    intro bs hbs
    rw [Content.encoding, Content.body, List.length_append, List.length_append] at hbs
    omega
  cases v with
  | bool b => exact Nat.lt_of_le_of_lt b.toNat_le (by decide)
  | uint32 n => exact Nat.lt_trans n.toNat_lt (by decide)
  | uint64 n => exact n.toNat_lt
  | int32 z => exact Nat.lt_trans (Varint.zigzag_lt 31 z.le_toInt z.toInt_lt) (by decide)
  | int64 z => exact Varint.zigzag_lt 63 z.le_toInt z.toInt_lt
  | bytes bs => exact hbytes bs h
  | string s => exact hbytes _ h

/-- At the front of a field as it is written, its tag is found, and the reader gets past it. -/
theorem Reader.next_encoding {r : Reader} {rest : Bytes} {tag : UInt8} {c : Content}
    (h : r.Faces (c.encoding tag ++ rest)) (hc : c.Fits) :
    ∃ r', r.next = (some tag, r') ∧ r.Past (c.encoding tag).length r' ∧ r'.Holds c := by
  have hitem := Frame.item_ofItem ⟨tag, c⟩
  have htag : (Frame.ofItem ⟨tag, c⟩).tag = tag := congrArg Item.tag hitem
  have hcontent : (Frame.ofItem ⟨tag, c⟩).body.content = c := congrArg Item.content hitem
  rw [← Frame.raw_ofItem ⟨tag, c⟩] at h ⊢
  obtain ⟨r', hnext, hpast, hholds⟩ := next_frame h (Frame.wellFormed_ofItem hc)
  rw [htag] at hnext
  rw [hcontent] at hholds
  exact ⟨r', hnext, hpast, hholds⟩

/-! ## Shapes -/

/-- The form in which a value is read. -/
inductive ValueForm where
  | bool
  | uint32
  | uint64
  | int32
  | int64
  | bytes
  | string

/-- The forms of a field and, if it is a message, of its fields. -/
inductive Shape where
  | value (form : ValueForm)
  | embedded (shapes : List Shape)

def Value.form : Value → ValueForm
  | .bool _ => .bool
  | .uint32 _ => .uint32
  | .uint64 _ => .uint64
  | .int32 _ => .int32
  | .int64 _ => .int64
  | .bytes _ => .bytes
  | .string _ => .string

namespace Field

mutual

def shape : Field → Shape
  | .value _ v => .value v.form
  | .embedded _ fields => .embedded (shapes fields)

def shapes : List Field → List Shape
  | [] => []
  | f :: fs => f.shape :: shapes fs

end

end Field

namespace Reader

/-- The present field's value, read in a given form. -/
def readValue (r : Reader) : ValueForm → Value × Reader
  | .bool => r.readBool.map .bool id
  | .uint32 => r.readUInt32.map .uint32 id
  | .uint64 => r.readUInt64.map .uint64 id
  | .int32 => r.readInt32.map .int32 id
  | .int64 => r.readInt64.map .int64 id
  | .bytes => r.readBytes.map .bytes id
  | .string => r.readString.map .string id

mutual

/-- Advances to the next field and reads it in the shape that is expected. An embedded message is
entered, read field by field and left at its end. -/
def readField (r : Reader) : Shape → Option Field × Reader
  | .value form =>
    match r.next with
    | (none, r) => (none, r)
    | (some tag, r) =>
      let (v, r) := r.readValue form
      (some (.value tag v), r)
  | .embedded shapes =>
    match r.next with
    | (none, r) => (none, r)
    | (some tag, r) =>
      let (outer, r) := r.startEmbedded
      match r.readFields shapes with
      | (none, r) => (none, r)
      | (some fields, r) => (some (.embedded tag fields), r.endEmbedded outer)

/-- Reads the fields of a message in the shapes that are expected, up to its end. -/
def readFields (r : Reader) : List Shape → Option (List Field) × Reader
  | [] =>
    match r.next with
    | (none, r) => (some [], r)
    | (some _, r) => (none, r)
  | shape :: shapes =>
    match r.readField shape with
    | (none, r) => (none, r)
    | (some f, r) =>
      match r.readFields shapes with
      | (none, r) => (none, r)
      | (some fs, r) => (some (f :: fs), r)

end

section Read

variable {r r' : Reader} {rest : Bytes}

theorem readShortNumber_eq (hok : r.failed = false) {n : Nat} (h : r.Holds (.number n))
    (hn : n < UInt32.size) : r.readShortNumber = (n, r) := by
  rw [readShortNumber, readNumber_eq hok h]
  simp only [if_pos hn]

/-- A value that the present field holds is read in its form, and nothing moves. -/
theorem readValue_content {v : Value} (hok : r.failed = false) (h : r.Holds v.content) :
    r.readValue v.form = (v, r) := by
  cases v with
  | bool b =>
    rw [Value.form, readValue, readBool, readNumber_eq hok h]
    cases b <;> rfl
  | uint32 n =>
    rw [Value.form, readValue, readUInt32, readShortNumber_eq hok h n.toNat_lt]
    exact congrArg (fun m => (Value.uint32 m, r)) UInt32.ofNat_toNat
  | uint64 n =>
    rw [Value.form, readValue, readUInt64, readNumber_eq hok h]
    exact congrArg (fun m => (Value.uint64 m, r)) UInt64.ofNat_toNat
  | int32 z =>
    have hn := Varint.zigzag_lt 31 z.le_toInt z.toInt_lt
    rw [Value.form, readValue, readInt32, readShortNumber_eq hok h hn]
    simp only [Varint.unzigzag_zigzag, Int32.ofInt_toInt]
    rfl
  | int64 z =>
    rw [Value.form, readValue, readInt64, readNumber_eq hok h]
    simp only [Option.getD_some, Varint.unzigzag_zigzag, Int64.ofInt_toInt]
    rfl
  | bytes bs =>
    rw [Value.form, readValue, readBytes_eq hok h]
    rfl
  | string s =>
    rw [Value.form, readValue, readString, readBytes_eq hok h]
    simp only [Bytes.toString?_ofString]
    rfl

/-- Inside an embedded message its contents are what is left. -/
theorem startEmbedded_eq {bs : Bytes} (h : r.Faces rest) (hholds : r.Holds (.bytes bs)) :
    ∃ r', r.startEmbedded = (⟨r.stop⟩, r') ∧ r'.input = r.input ∧ r'.stop = r.pos ∧
      r'.Faces bs := by
  obtain ⟨hplace, hbytes⟩ := hholds.bytes_eq bs rfl
  have hkind : r.kind = some .lengthDelimited := hholds.kind_eq
  refine ⟨{ r with stop := r.pos, pos := r.start, kind := none }, ?_, rfl, rfl, ?_⟩
  · rw [startEmbedded, h.failed_eq, if_neg (by decide), if_pos hkind]
  · refine ⟨h.failed_eq, Nat.le_trans h.pos_le h.stop_le, ?_, ?_⟩
    · exact Nat.le.intro hplace
    · show (r.input.drop r.start).take (r.pos - r.start) = bs
      rw [← hplace, Nat.add_sub_cancel_left]
      exact hbytes

/-- Leaving an embedded message, the reader is behind it in the enclosing one. -/
theorem endEmbedded_eq (hok : r'.failed = false) (hstop : r'.stop = r.pos)
    (hpos : r.pos ≤ r.stop) (hinput : r'.input = r.input) :
    r.Past 0 (r'.endEmbedded ⟨r.stop⟩) := by
  have hinside : ¬ r.stop < r'.stop := by
    rw [hstop]
    exact Nat.not_lt.mpr hpos
  rw [endEmbedded, hok, if_neg (by decide)]
  simp only [if_neg hinside]
  exact ⟨rfl, hinput, rfl, hstop⟩

end Read

mutual

/-- At the front of a field, the field is read in its shape, and the reader gets past it. -/
theorem readField_eq {r : Reader} {rest : Bytes} {f : Field} (hsize : r.input.length < 2 ^ 64)
    (h : r.Faces (f.encoding ++ rest)) :
    ∃ r', r.readField f.shape = (some f, r') ∧ r.Past f.encoding.length r' := by
  have hlen := h.length_le
  rw [List.length_append] at hlen
  have hshort : f.encoding.length < 2 ^ 64 := by omega
  cases f with
  | value tag v =>
    rw [Field.encoding] at h hshort ⊢
    obtain ⟨r', hnext, hpast, hholds⟩ := next_encoding h (Value.content_fits hshort)
    refine ⟨r', ?_, hpast⟩
    rw [Field.shape, readField, hnext]
    simp only [readValue_content hpast.failed_eq hholds]
  | embedded tag fields =>
    rw [Field.encoding] at h hshort ⊢
    have hfits : (Content.bytes (Field.encodings fields)).Fits := by
      rw [Content.encoding, Content.body, List.length_append, List.length_append] at hshort
      show (Field.encodings fields).length < 2 ^ 64
      omega
    obtain ⟨r₁, hnext, hpast, hholds⟩ := next_encoding h hfits
    -- the header already takes the reader past the whole field; entering goes back, leaving returns
    have hfaces := h.past hpast
    obtain ⟨r₂, hstart, hinput, hstop, hinside⟩ := startEmbedded_eq hfaces hholds
    have hsize₂ : r₂.input.length < 2 ^ 64 := by
      rw [hinput, hpast.input_eq]
      exact hsize
    obtain ⟨r₃, hread, hthrough⟩ := readFields_eq hsize₂ hinside
    have hback := endEmbedded_eq hthrough.failed_eq (hthrough.stop_eq.trans hstop) hfaces.pos_le
      (hthrough.input_eq.trans hinput)
    refine ⟨_, ?_, hpast.trans hback⟩
    rw [Field.shape, readField, hnext]
    simp only [hstart, hread]

/-- At the front of a message, all its fields are read in their shapes, and nothing is left. -/
theorem readFields_eq {r : Reader} {fs : List Field} (hsize : r.input.length < 2 ^ 64)
    (h : r.Faces (Field.encodings fs)) :
    ∃ r', r.readFields (Field.shapes fs) = (some fs, r') ∧
      r.Past (Field.encodings fs).length r' := by
  cases fs with
  | nil =>
    rw [Field.encodings] at h
    refine ⟨r, ?_, h.failed_eq, rfl, rfl, rfl⟩
    rw [Field.shapes, readFields, next_end h]
  | cons f fs =>
    rw [Field.encodings] at h ⊢
    obtain ⟨r₁, hfirst, hpast⟩ := readField_eq hsize h
    have hsize₁ : r₁.input.length < 2 ^ 64 := by
      rw [hpast.input_eq]
      exact hsize
    obtain ⟨r₂, hothers, hthrough⟩ := readFields_eq hsize₁ (h.past hpast)
    refine ⟨r₂, ?_, ?_⟩
    · rw [Field.shapes, readFields, hfirst]
      simp only [hothers]
    · rw [List.length_append]
      exact hpast.trans hthrough

end

end Reader

/-- What is written can be read. Whatever fields a message has, embedded ones to any depth, if those
are not too long to be closed and the area has room for the message, then nothing fails, and reading
what has been written gives the same fields in the same order and nothing behind them. No area has
`2 ^ 64` bytes. -/
theorem fields_survive {fields : List Field} {area : Bytes} (hclosable : Field.AllClosable fields)
    (hroom : (Field.encodings fields).length ≤ area.length) (hsize : area.length < 2 ^ 64) :
    let w := (Writer.new area).addFields fields
    ∃ n, w.finish = .ok n ∧
      ∃ r, (Reader.new (w.area.take n)).readFields (Field.shapes fields) = (some fields, r) ∧
        r.next = (none, r) ∧ r.finish = .ok () := by
  intro w
  have hhas : (Writer.new area).HasRoom (Field.encodings fields) := by
    refine ⟨rfl, ?_⟩
    show 0 + (Field.encodings fields).length ≤ area.length
    omega
  have hw : w = (Writer.new area).appended (Field.encodings fields) :=
    Writer.addFields_eq hclosable hhas
  refine ⟨(Field.encodings fields).length, ?_, ?_⟩
  · rw [hw, Writer.finish, Writer.appended]
    simp [Writer.new]
  · have htake : w.area.take (Field.encodings fields).length = Field.encodings fields := by
      rw [hw, Writer.appended, Writer.new, Bytes.overwrite]
      exact List.take_left
    rw [htake]
    have hfaces : (Reader.new (Field.encodings fields)).Faces (Field.encodings fields) := by
      refine ⟨rfl, Nat.le_refl _, Nat.zero_le _, ?_⟩
      exact List.take_length
    obtain ⟨r, hread, hpast⟩ := Reader.readFields_eq (Nat.lt_of_le_of_lt hroom hsize) hfaces
    have hwhole : (Reader.new (Field.encodings fields)).Faces (Field.encodings fields ++ []) := by
      rw [List.append_nil]
      exact hfaces
    have hend : r.Faces [] := hwhole.past hpast
    refine ⟨r, hread, Reader.next_end hend, ?_⟩
    rw [Reader.finish, hpast.failed_eq]
    rfl

/-- The length of the inner message, and hence that of the outer one, takes two bytes. -/
theorem fields_survive_nested :
    let inner : Field := .embedded 3 [.value 4 (.bytes (Bytes.zeros 200)), .value 5 (.string "é")]
    let fields : List Field :=
      [.value 1 (.uint32 300), .embedded 200 [.value 2 (.int64 (-5)), inner], .value 6 (.bool true)]
    let w := (Writer.new (Bytes.zeros 300)).addFields fields
    ∃ n, w.finish = .ok n ∧
      ∃ r, (Reader.new (w.area.take n)).readFields (Field.shapes fields) = (some fields, r) ∧
        r.next = (none, r) ∧ r.finish = .ok () := by
  intro inner fields
  have hinner : inner.Closable := by
    refine ⟨?_, trivial, trivial, trivial⟩
    decide +kernel
  have hclosable : Field.AllClosable fields := by
    refine ⟨trivial, ⟨?_, trivial, hinner, trivial⟩, trivial, trivial⟩
    decide +kernel
  have hroom : (Field.encodings fields).length ≤ (Bytes.zeros 300).length := by decide +kernel
  exact fields_survive hclosable hroom (by decide +kernel)

end NoiseChannel
