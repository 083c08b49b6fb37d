import NoiseChannel.Proofs.Spelling
import NoiseChannel.Wire.Writer

/-!
# Trees of fields

A message is a list of fields, some of which are messages again. `Field.encodings` says what bytes
it has, each embedded message behind its length, and `Writer.addFields` writes it with one call for
each field. Where there is room, the calls append exactly those bytes (`Writer.addFields_eq`): the
placeholder that an embedded message starts with, and its contents, are overwritten in the end.
-/

namespace NoiseChannel

/-! ## Overwriting twice -/

/-- What is written over the tail of what has been written before replaces it. -/
theorem Bytes.overwrite_tail {area a b c : Bytes} {pos : Nat} (hpos : pos ≤ area.length)
    (hbc : b.length ≤ c.length) :
    (area.overwrite pos (a ++ b)).overwrite (pos + a.length) c = area.overwrite pos (a ++ c) := by
  have hfront : (area.take pos ++ a).length = pos + a.length := by
    rw [List.length_append, List.length_take, Nat.min_eq_left hpos]
  have htake : (area.overwrite pos (a ++ b)).take (pos + a.length) = area.take pos ++ a := by
    unfold overwrite
    rw [List.append_assoc, List.append_assoc, ← List.append_assoc, ← hfront]
    exact List.take_left
  have hdrop : (area.overwrite pos (a ++ b)).drop (pos + a.length + c.length) =
      area.drop (pos + (a ++ c).length) := by
    have hwhole : (area.take pos ++ (a ++ b)).length = pos + a.length + b.length := by
      rw [← List.append_assoc, List.length_append, hfront]
    have hsplit : pos + a.length + c.length =
        (area.take pos ++ (a ++ b)).length + (c.length - b.length) := by
      omega
    unfold overwrite
    rw [hsplit, List.drop_length_add_append, List.drop_drop]
    congr 1
    rw [List.length_append, List.length_append]
    omega
  rw [overwrite, htake, hdrop, overwrite, List.append_assoc (area.take pos)]

theorem Bytes.overwrite_append {area a c : Bytes} {pos : Nat} (hpos : pos ≤ area.length) :
    (area.overwrite pos a).overwrite (pos + a.length) c = area.overwrite pos (a ++ c) := by
  have h := overwrite_tail (a := a) (b := []) (c := c) hpos (Nat.zero_le _)
  rwa [List.append_nil] at h

/-! ## Fields -/

/-- The value of a field that is not a message. -/
inductive Value where
  | bool (b : Bool)
  | uint32 (n : UInt32)
  | uint64 (n : UInt64)
  | int32 (z : Int32)
  | int64 (z : Int64)
  | bytes (bs : Bytes)
  | string (s : String)

/-- A field with its tag: a value or an embedded message. -/
inductive Field where
  | value (tag : UInt8) (v : Value)
  | embedded (tag : UInt8) (fields : List Field)

/-- What stands behind the header of a field. -/
inductive Content where
  | number (n : Nat)
  | bytes (bs : Bytes)

namespace Content

def kind : Content → WireKind
  | .number _ => .varint
  | .bytes _ => .lengthDelimited

def body : Content → Bytes
  | .number n => Varint.encode n
  | .bytes bs => Varint.encode bs.length ++ bs

/-- The bytes of a field. -/
def encoding (tag : UInt8) (c : Content) : Bytes := Varint.encode (c.kind.header tag) ++ c.body

end Content

/-- A value as it stands on the wire. -/
def Value.content : Value → Content
  | .bool b => .number b.toNat
  | .uint32 n => .number n.toNat
  | .uint64 n => .number n.toNat
  | .int32 z => .number (Varint.zigzag z.toInt)
  | .int64 z => .number (Varint.zigzag z.toInt)
  | .bytes bs => .bytes bs
  | .string s => .bytes (.ofString s)

namespace Field

mutual

/-- The bytes of a field. -/
def encoding : Field → Bytes
  | .value tag v => v.content.encoding tag
  | .embedded tag fields => (Content.bytes (encodings fields)).encoding tag

/-- The bytes of a message. -/
def encodings : List Field → Bytes
  | [] => []
  | f :: fs => f.encoding ++ encodings fs

end

mutual

/-- No message embedded in a field, at whatever depth, is too long to be closed. -/
def Closable : Field → Prop
  | .value _ _ => True
  | .embedded _ fields => (encodings fields).length ≤ Writer.maxEmbedded ∧ AllClosable fields

/-- So is it for every field of a message. -/
def AllClosable : List Field → Prop
  | [] => True
  | f :: fs => f.Closable ∧ AllClosable fs

end

end Field

/-! ## Writing -/

/-- The extra room that the length of a message takes. -/
theorem Writer.extraLength?_eq {n : Nat} (h : n ≤ maxEmbedded) :
    extraLength? n = some ((Varint.encode n).length - 1) := by
  have hone : ∀ m, m < 128 → (Varint.encode m).length = 1 := by
    intro m hm
    rw [Varint.encode, if_pos hm]
    rfl
  have hmax : maxEmbedded = 65535 := rfl
  unfold extraLength?
  split
  · rw [hone n (by omega)]
  · split
    · rw [Varint.length_encode_succ (by omega), hone (n / 128) (by omega)]
    · rw [Varint.length_encode_succ (by omega), Varint.length_encode_succ (by omega),
        hone (n / 128 / 128) (by omega)]

namespace Writer

def addValue (w : Writer) (tag : UInt8) : Value → Writer
  | .bool b => w.addBool tag b
  | .uint32 n => w.addUInt32 tag n
  | .uint64 n => w.addUInt64 tag n
  | .int32 z => w.addInt32 tag z
  | .int64 z => w.addInt64 tag z
  | .bytes bs => w.addBytes tag bs
  | .string s => w.addString tag s

mutual

/-- Appends a field; an embedded message is opened, written field by field and closed. -/
def addField (w : Writer) : Field → Writer
  | .value tag v => w.addValue tag v
  | .embedded tag fields =>
    let (mark, w) := w.startEmbedded tag
    (w.addFields fields).endEmbedded mark

def addFields (w : Writer) : List Field → Writer
  | [] => w
  | f :: fs => (w.addField f).addFields fs

end

/-- The writer after some bytes have been appended. -/
def appended (w : Writer) (bytes : Bytes) : Writer :=
  { w with area := w.area.overwrite w.pos bytes, pos := w.pos + bytes.length }

/-- Nothing has failed, and the bytes fit. -/
def HasRoom (w : Writer) (bytes : Bytes) : Prop :=
  w.failed = false ∧ w.pos + bytes.length ≤ w.area.length

section Room

variable {w : Writer} {a b : Bytes}

theorem HasRoom.left (h : w.HasRoom (a ++ b)) : w.HasRoom a := by
  obtain ⟨hok, hfits⟩ := h
  rw [List.length_append] at hfits
  exact ⟨hok, by omega⟩

theorem HasRoom.right (h : w.HasRoom (a ++ b)) : (w.appended a).HasRoom b := by
  have hleft := h.left
  obtain ⟨hok, hfits⟩ := h
  refine ⟨hok, ?_⟩
  show w.pos + a.length + b.length ≤ (w.area.overwrite w.pos a).length
  rw [Bytes.length_overwrite hleft.2]
  rw [List.length_append] at hfits
  omega

theorem appended_appended (h : w.HasRoom a) : (w.appended a).appended b = w.appended (a ++ b) := by
  have hpos : w.pos ≤ w.area.length := Nat.le_of_add_right_le h.2
  unfold appended
  rw [Bytes.overwrite_append hpos, List.length_append, Nat.add_assoc]

theorem push_eq (h : w.HasRoom a) : w.push a = w.appended a := by
  obtain ⟨hok, hfits⟩ := h
  have htake : a.take (w.area.length - w.pos) = a := List.take_of_length_le (by omega)
  unfold push appended
  rw [hok, htake]
  simp

theorem pushWhole_eq (h : w.HasRoom a) : w.pushWhole a = w.appended a := by
  obtain ⟨hok, hfits⟩ := h
  unfold pushWhole appended
  rw [hok, if_neg (by decide), if_neg (by omega)]

theorem pushVarint_eq {n : Nat} (h : w.HasRoom (Varint.encode n)) :
    w.pushVarint n = w.appended (Varint.encode n) :=
  push_eq h

end Room

/-- Appends a field with what stands on the wire. -/
def addContent (w : Writer) (tag : UInt8) : Content → Writer
  | .number n => w.addNumber tag n
  | .bytes bs => w.addBytes tag bs

theorem addValue_eq (w : Writer) (tag : UInt8) (v : Value) :
    w.addValue tag v = w.addContent tag v.content := by
  cases v <;> rfl

theorem addContent_eq {w : Writer} {tag : UInt8} {c : Content} (h : w.HasRoom (c.encoding tag)) :
    w.addContent tag c = w.appended (c.encoding tag) := by
  rw [Content.encoding] at h ⊢
  cases c with
  | number n =>
    rw [Content.kind, Content.body] at h ⊢
    rw [addContent, addNumber, pushVarint_eq h.left, pushVarint_eq h.right, appended_appended h.left]
  | bytes bs =>
    rw [Content.kind, Content.body] at h ⊢
    rw [addContent, addBytes, pushVarint_eq h.left, pushVarint_eq h.right.left,
      pushWhole_eq h.right.right, appended_appended h.right.left, appended_appended h.left]

/-- Closing an embedded message takes up all that stands behind the placeholder. -/
theorem endEmbedded_appended {w : Writer} {header contents : Bytes}
    (h : w.HasRoom (header ++ ([0] ++ contents))) :
    (w.appended (header ++ ([0] ++ contents))).endEmbedded ⟨w.pos + header.length⟩ =
      match extraLength? contents.length with
      | none => (w.appended (header ++ ([0] ++ contents))).fail
      | some extra =>
        if w.area.length < w.pos + (header ++ ([0] ++ contents)).length + extra then
          (w.appended (header ++ ([0] ++ contents))).fail
        else
          { w with
            area := (w.area.overwrite w.pos (header ++ ([0] ++ contents))).overwrite
              (w.pos + header.length) (Varint.encode contents.length ++ contents)
            pos := w.pos + (header ++ ([0] ++ contents)).length + extra } := by
  obtain ⟨hok, hfits⟩ := h
  have hpos : w.pos ≤ w.area.length := Nat.le_of_add_right_le hfits
  have hlen : (header ++ ([0] ++ contents)).length = header.length + 1 + contents.length := by
    simp only [List.length_append, List.length_singleton]
    omega
  have hsize : (w.area.overwrite w.pos (header ++ ([0] ++ contents))).length = w.area.length :=
    Bytes.length_overwrite hfits
  have hcontents : ((w.area.overwrite w.pos (header ++ ([0] ++ contents))).take
      (w.pos + (header ++ ([0] ++ contents)).length)).drop (w.pos + header.length + 1) =
      contents := by
    have hfront : (w.area.take w.pos).length = w.pos := by
      rw [List.length_take, Nat.min_eq_left hpos]
    have htake : (w.area.overwrite w.pos (header ++ ([0] ++ contents))).take
        (w.pos + (header ++ ([0] ++ contents)).length) =
        w.area.take w.pos ++ (header ++ ([0] ++ contents)) := by
      unfold Bytes.overwrite
      refine List.take_left' ?_
      rw [List.length_append, hfront]
    rw [htake, ← List.append_assoc header, ← List.append_assoc]
    refine List.drop_left' ?_
    simp only [List.length_append, List.length_singleton, hfront]
    omega
  have hgoes : ¬ w.pos + (header ++ ([0] ++ contents)).length ≤ w.pos + header.length := by
    omega
  simp only [endEmbedded, appended, hok, hcontents, hsize]
  refine (if_neg (by decide)).trans ((if_neg hgoes).trans ?_)
  cases extraLength? contents.length <;> rfl

/-- Closing an embedded message leaves its length and its contents behind the header, in the place
of the placeholder. -/
theorem endEmbedded_eq {w : Writer} {header contents : Bytes}
    (hshort : contents.length ≤ maxEmbedded)
    (h : w.HasRoom (header ++ (Content.bytes contents).body)) :
    (w.appended (header ++ ([0] ++ contents))).endEmbedded ⟨w.pos + header.length⟩ =
      w.appended (header ++ (Content.bytes contents).body) := by
  have hpositive := Varint.length_encode_pos contents.length
  obtain ⟨hok, hfits⟩ := h
  have hpos : w.pos ≤ w.area.length := Nat.le_of_add_right_le hfits
  rw [Content.body] at hfits ⊢
  simp only [List.length_append] at hfits
  have hlen : (header ++ ([0] ++ contents)).length = header.length + 1 + contents.length := by
    simp only [List.length_append, List.length_singleton]
    omega
  have hplaced : w.HasRoom (header ++ ([0] ++ contents)) := ⟨hok, by omega⟩
  rw [endEmbedded_appended hplaced, extraLength?_eq hshort]
  simp only []
  rw [if_neg (by omega)]
  -- length and contents together cover the placeholder and the old place of the contents
  unfold appended
  congr 1
  · refine Bytes.overwrite_tail hpos ?_
    simp only [List.length_append, List.length_singleton]
    omega
  · simp only [List.length_append, List.length_singleton]
    omega

mutual

/-- A field for which there is room is appended as it is encoded. -/
theorem addField_eq {w : Writer} {f : Field} (hf : f.Closable) (h : w.HasRoom f.encoding) :
    w.addField f = w.appended f.encoding := by
  cases f with
  | value tag v =>
    rw [Field.encoding] at h ⊢
    rw [addField, addValue_eq]
    exact addContent_eq h
  | embedded tag fields =>
    rw [Field.Closable] at hf
    obtain ⟨hshort, hfields⟩ := hf
    rw [Field.encoding, Content.encoding] at h ⊢
    have hpositive := Varint.length_encode_pos (Field.encodings fields).length
    -- the placeholder takes no more room than the length
    have hplaced : w.HasRoom (Varint.encode (WireKind.lengthDelimited.header tag) ++
        ([0] ++ Field.encodings fields)) := by
      refine ⟨h.1, Nat.le_trans ?_ h.2⟩
      simp only [Content.body, Content.kind, List.length_append, List.length_singleton]
      omega
    have hheader := hplaced.left
    have hzero := hplaced.right.left
    have hcontents := hplaced.right.right
    rw [addField, startEmbedded]
    simp only []
    rw [pushVarint_eq hheader, push_eq hzero, addFields_eq hfields hcontents,
      appended_appended hzero, appended_appended hheader]
    exact endEmbedded_eq hshort h

/-- A message for which there is room is appended as it is encoded. -/
theorem addFields_eq {w : Writer} {fs : List Field} (hfs : Field.AllClosable fs)
    (h : w.HasRoom (Field.encodings fs)) : w.addFields fs = w.appended (Field.encodings fs) := by
  cases fs with
  | nil =>
    rw [addFields, Field.encodings, appended]
    rcases w with ⟨area, pos, failed⟩
    simp [Bytes.overwrite]
  | cons f fs =>
    rw [Field.AllClosable] at hfs
    rw [Field.encodings] at h ⊢
    rw [addFields, addField_eq hfs.1 h.left, addFields_eq hfs.2 h.right, appended_appended h.left]

end

end Writer

end NoiseChannel
