import Mathlib.Tactic.ByContra
import NoiseChannel.Proofs.Encoding

/-!
# What fits

A writer whose failure is set does nothing more, so that one that has not failed in the end has had
room for everything on the way (`hasRoom_addFields`). With what is known of the writer that has room,
writing a message comes out in one of two ways: the area begins with the message and is untouched
behind it, or the caller is told that it does not fit (`fields_written`).
-/

namespace NoiseChannel

namespace Writer

variable {w : Writer} {a b : Bytes}

/-! ## After a failure -/

section Failed

theorem push_failed (h : w.failed = true) (bytes : Bytes) : w.push bytes = w := by
  rw [push, if_pos h]

theorem pushVarint_failed (h : w.failed = true) (n : Nat) : w.pushVarint n = w :=
  push_failed h _

theorem addContent_failed (h : w.failed = true) (tag : UInt8) (c : Content) :
    w.addContent tag c = w := by
  cases c with
  | number n => rw [addContent, addNumber, pushVarint_failed h, pushVarint_failed h]
  | bytes bs =>
    rw [addContent, addBytes, pushVarint_failed h, pushVarint_failed h, pushWhole, if_pos h]

theorem startEmbedded_failed (h : w.failed = true) (tag : UInt8) :
    w.startEmbedded tag = (⟨w.pos⟩, w) := by
  rw [startEmbedded, pushVarint_failed h]
  simp only [push_failed h]

theorem endEmbedded_failed (h : w.failed = true) (mark : Mark) : w.endEmbedded mark = w := by
  rw [endEmbedded, if_pos h]

mutual

theorem addField_failed {w : Writer} (h : w.failed = true) (f : Field) : w.addField f = w := by
  cases f with
  | value tag v => rw [addField, addValue_eq, addContent_failed h]
  | embedded tag fields =>
    rw [addField, startEmbedded_failed h]
    simp only []
    rw [addFields_failed h fields, endEmbedded_failed h]

/-- A writer that has failed ignores whatever is written. -/
theorem addFields_failed {w : Writer} (h : w.failed = true) (fs : List Field) :
    w.addFields fs = w := by
  cases fs with
  | nil => rw [addFields]
  | cons f fs => rw [addFields, addField_failed h f, addFields_failed h fs]

end

end Failed

/-! ## Without a failure -/

section Room

theorem HasRoom.append (h : w.HasRoom a) (h' : (w.appended a).HasRoom b) : w.HasRoom (a ++ b) := by
  obtain ⟨hok, hfits⟩ := h
  have hfits' : w.pos + a.length + b.length ≤ (w.area.overwrite w.pos a).length := h'.2
  rw [Bytes.length_overwrite hfits] at hfits'
  refine ⟨hok, ?_⟩
  rw [List.length_append]
  omega

theorem HasRoom.pos_le (h : w.HasRoom a) : (w.appended a).pos ≤ (w.appended a).area.length := by
  show w.pos + a.length ≤ (w.area.overwrite w.pos a).length
  rw [Bytes.length_overwrite h.2]
  exact h.2

/-- What a failed writer ignores cannot leave a writer that has not failed. -/
theorem ok_before {w' : Writer} (hignored : w.failed = true → w' = w) (h : w'.failed = false) :
    w.failed = false := by
  by_contra hfailed
  rw [Bool.not_eq_false] at hfailed
  rw [hignored hfailed, hfailed] at h
  cases h

theorem hasRoom_push (hpos : w.pos ≤ w.area.length) (h : (w.push a).failed = false) :
    w.HasRoom a := by
  have hok := ok_before (fun hfailed => push_failed hfailed a) h
  rw [push, if_neg (by rw [hok]; decide)] at h
  simp only [decide_eq_false_iff_not, List.length_take] at h
  exact ⟨hok, by omega⟩

theorem hasRoom_pushWhole (h : (w.pushWhole a).failed = false) : w.HasRoom a := by
  unfold pushWhole at h
  split at h
  · rename_i hfailed
    rw [hfailed] at h
    cases h
  · rename_i hok
    split at h
    · cases h
    · exact ⟨Bool.eq_false_iff.mpr hok, by omega⟩

theorem hasRoom_push_push (hpos : w.pos ≤ w.area.length)
    (h : ((w.push a).push b).failed = false) : w.HasRoom (a ++ b) := by
  have ha := hasRoom_push hpos (ok_before (fun hfailed => push_failed hfailed b) h)
  rw [push_eq ha] at h
  exact ha.append (hasRoom_push ha.pos_le h)

theorem hasRoom_addContent {tag : UInt8} {c : Content} (hpos : w.pos ≤ w.area.length)
    (h : (w.addContent tag c).failed = false) : w.HasRoom (c.encoding tag) := by
  cases c with
  | number n => exact hasRoom_push_push hpos h
  | bytes bs =>
    rw [addContent, addBytes] at h
    have hlast := hasRoom_pushWhole h
    have hfront := hasRoom_push_push hpos hlast.1
    have hheader := hfront.left
    rw [pushVarint_eq hheader, pushVarint_eq hfront.right, appended_appended hheader] at hlast
    have hwhole := hfront.append hlast
    rw [List.append_assoc] at hwhole
    exact hwhole

theorem extraLength?_eq_none {n : Nat} (h : maxEmbedded < n) : extraLength? n = none := by
  have hmax : maxEmbedded = 65535 := rfl
  unfold extraLength?
  rw [if_neg (by omega), if_neg (by omega), if_neg (by omega)]

/-- If an embedded message has been closed, it has not been too long, and there has been room for its
length. -/
theorem hasRoom_endEmbedded {header contents : Bytes}
    (hplaced : w.HasRoom (header ++ ([0] ++ contents)))
    (h : ((w.appended (header ++ ([0] ++ contents))).endEmbedded ⟨w.pos + header.length⟩).failed =
      false) :
    contents.length ≤ maxEmbedded ∧ w.HasRoom (header ++ (Content.bytes contents).body) := by
  rw [endEmbedded_appended hplaced] at h
  have hshort : contents.length ≤ maxEmbedded := by
    by_contra hlong
    rw [extraLength?_eq_none (Nat.lt_of_not_le hlong)] at h
    cases h
  rw [extraLength?_eq hshort] at h
  refine ⟨hshort, hplaced.1, ?_⟩
  have hpositive := Varint.length_encode_pos contents.length
  by_cases hfits : w.area.length < w.pos + (header ++ ([0] ++ contents)).length +
      ((Varint.encode contents.length).length - 1)
  · simp only [if_pos hfits] at h
    cases h
  · simp only [Content.body, List.length_append, List.length_singleton] at hfits ⊢
    omega

mutual

theorem hasRoom_addField {w : Writer} {f : Field} (hpos : w.pos ≤ w.area.length)
    (h : (w.addField f).failed = false) : f.Closable ∧ w.HasRoom f.encoding := by
  cases f with
  | value tag v =>
    rw [addField, addValue_eq] at h
    rw [Field.Closable, Field.encoding]
    exact ⟨trivial, hasRoom_addContent hpos h⟩
  | embedded tag fields =>
    rw [addField, startEmbedded] at h
    simp only [] at h
    rw [Field.Closable, Field.encoding, Content.encoding]
    -- had anything failed before, closing would not have mended it
    have hfields := ok_before (fun hfailed => endEmbedded_failed hfailed _) h
    have hopened := ok_before (fun hfailed => addFields_failed hfailed fields) hfields
    have hplaceholder := hasRoom_push_push hpos hopened
    have hheader := hplaceholder.left
    have hzero := hplaceholder.right
    rw [pushVarint_eq hheader, push_eq hzero, appended_appended hheader] at h hfields
    obtain ⟨hclosable, hcontents⟩ := hasRoom_addFields hplaceholder.pos_le hfields
    have hplaced := hplaceholder.append hcontents
    rw [addFields_eq hclosable hcontents, appended_appended hplaceholder, List.append_assoc] at h
    rw [List.append_assoc] at hplaced
    obtain ⟨hshort, hroom⟩ := hasRoom_endEmbedded hplaced h
    exact ⟨⟨hshort, hclosable⟩, hroom⟩

/-- If a message has been written, every message embedded in it could be closed, and there has been
room for all of it. -/
theorem hasRoom_addFields {w : Writer} {fs : List Field} (hpos : w.pos ≤ w.area.length)
    (h : (w.addFields fs).failed = false) :
    Field.AllClosable fs ∧ w.HasRoom (Field.encodings fs) := by
  cases fs with
  | nil =>
    rw [addFields] at h
    rw [Field.AllClosable, Field.encodings]
    exact ⟨trivial, h, hpos⟩
  | cons f fs =>
    rw [addFields] at h
    rw [Field.AllClosable, Field.encodings]
    have hfirst := ok_before (fun hfailed => addFields_failed hfailed fs) h
    obtain ⟨hf, hroom⟩ := hasRoom_addField hpos hfirst
    rw [addField_eq hf hroom] at h
    obtain ⟨hfs, hrest⟩ := hasRoom_addFields hroom.pos_le h
    exact ⟨⟨hf, hfs⟩, hroom.append hrest⟩

end

end Room

/-! ## Whole messages -/

section Whole

variable {fields : List Field} {area : Bytes}

theorem addFields_new (hfits : (Field.encodings fields).length ≤ area.length)
    (hclosable : Field.AllClosable fields) :
    (new area).addFields fields =
      ⟨Field.encodings fields ++ area.drop (Field.encodings fields).length,
        (Field.encodings fields).length, false⟩ := by
  have hroom : (new area).HasRoom (Field.encodings fields) := by
    refine ⟨rfl, ?_⟩
    show 0 + (Field.encodings fields).length ≤ area.length
    rw [Nat.zero_add]
    exact hfits
  rw [addFields_eq hclosable hroom, appended, new]
  simp only [Bytes.overwrite, List.take_zero, List.nil_append, Nat.zero_add]

theorem addFields_new_failed
    (h : ¬ ((Field.encodings fields).length ≤ area.length ∧ Field.AllClosable fields)) :
    ((new area).addFields fields).failed = true := by
  by_contra hok
  rw [Bool.not_eq_true] at hok
  obtain ⟨hclosable, -, hfits⟩ := hasRoom_addFields (Nat.zero_le _) hok
  refine h ⟨?_, hclosable⟩
  rw [new, Nat.zero_add] at hfits
  exact hfits

/-- The bytes of a message, if they fit. -/
theorem written_addFields (hclosable : Field.AllClosable fields) :
    ((new area).addFields fields).written =
      if (Field.encodings fields).length ≤ area.length then .ok (Field.encodings fields)
      else .error .encoding := by
  split
  · rename_i hfits
    rw [written, finish, addFields_new hfits hclosable]
    exact congrArg Except.ok List.take_left
  · rename_i hfits
    rw [written, finish, addFields_new_failed (fun h => hfits h.1), if_pos rfl]
    rfl

end Whole

end Writer

namespace Field

/-- The field with its length in front from the beginning: an embedded message as one byte string. -/
def lengthFirst : Field → Field
  | .value tag v => .value tag v
  | .embedded tag fields => .value tag (.bytes (encodings fields))

theorem encodings_lengthFirst (fields : List Field) :
    encodings (fields.map lengthFirst) = encodings fields := by
  induction fields with
  | nil => rfl
  | cons f fs ih =>
    have hf : f.lengthFirst.encoding = f.encoding := by
      cases f <;> simp only [lengthFirst, encoding, Value.content]
    rw [List.map_cons, encodings, encodings, hf, ih]

theorem allClosable_lengthFirst (fields : List Field) :
    AllClosable (fields.map lengthFirst) := by
  induction fields with
  | nil => exact trivial
  | cons f fs ih =>
    rw [List.map_cons, AllClosable]
    refine ⟨?_, ih⟩
    cases f <;> simp only [lengthFirst, Closable]

end Field

/-- Writing a message comes out as its encoding or not at all. Whatever fields it has, embedded ones
to any depth, and whatever the area holds: if the encoding fits and no embedded message is too long,
the area begins with the encoding and is untouched behind it, and otherwise the writer has failed.
Embedded messages whose length is filled in afterwards come out as if it had been written first, and
every number stands in its shortest spelling. -/
theorem fields_written (fields : List Field) (area : Bytes) :
    let w := (Writer.new area).addFields fields
    let e := Field.encodings fields
    ((e.length ≤ area.length ∧ Field.AllClosable fields) ∧
        w.finish = .ok e.length ∧ w.area = e ++ area.drop e.length ∨
      ¬ (e.length ≤ area.length ∧ Field.AllClosable fields) ∧ w.finish = .error .encoding) ∧
    (Field.AllClosable fields →
      ((Writer.new area).addFields (fields.map Field.lengthFirst)).written = w.written) ∧
    ∀ n < 2 ^ 64, Varint.Shortest n (Varint.encode n) := by
  intro w e
  refine ⟨?_, ?_, fun n hn => Varint.shortest_encode hn⟩
  · by_cases h : e.length ≤ area.length ∧ Field.AllClosable fields
    · refine Or.inl ⟨h, ?_, ?_⟩
      · simp only [w, Writer.finish, Writer.addFields_new h.1 h.2]
        rfl
      · simp only [w, Writer.addFields_new h.1 h.2]
        rfl
    · refine Or.inr ⟨h, ?_⟩
      simp only [w, Writer.finish, Writer.addFields_new_failed h]
      rfl
  · intro hclosable
    rw [Writer.written_addFields hclosable,
      Writer.written_addFields (Field.allClosable_lengthFirst fields), Field.encodings_lengthFirst]

/-- From tag 16 on a header takes two bytes. The negative number -3 is folded onto 5. -/
example :
    let fields := [.embedded 200 [.value 16 (.int32 (-3))]]
    ((Writer.new (Bytes.zeros 6)).addFields fields).written.toOption =
      some [0xc2, 0x0c, 3, 0x80, 0x01, 5] := by
  decide +kernel

end NoiseChannel
