import NoiseChannel.Proofs.AnyOrder
import NoiseChannel.Proofs.Capacity

/-!
# A writer called in any order

The calls on a writer are not bound to an order, and an embedded message may be closed at a mark that
belongs to another one, has been used before or comes from another writer. Whatever is called, a
writer goes forward inside its area and leaves alone what lies ahead of it (`extends_after`). Hence
nothing is written that does not have its place there: byte by byte, with every place checked and the
contents of an embedded message moved before its length is put in front of them, the calls do the
same (`performChecked_eq`).
-/

namespace NoiseChannel

namespace Bytes

variable {area : Bytes}

/-- Bytes that are written where they stand change nothing. -/
theorem overwrite_self {here there : Nat} (hle : here ≤ there) (hthere : there ≤ area.length) :
    area.overwrite here ((area.take there).drop here) = area := by
  have hlen : here + ((area.take there).drop here).length = there := by
    rw [List.length_drop, List.length_take]
    omega
  have hfront : area.take here ++ (area.take there).drop here = area.take there := by
    have htake : area.take here = (area.take there).take here := by
      rw [List.take_take, Nat.min_eq_left hle]
    rw [htake, List.take_append_drop]
  unfold overwrite
  rw [hlen, hfront, List.take_append_drop]

/-- It does not matter whether bytes are written before those that follow them. -/
theorem overwrite_before {a c : Bytes} {pos : Nat} (hpos : pos + a.length ≤ area.length) :
    (area.overwrite (pos + a.length) c).overwrite pos a = area.overwrite pos (a ++ c) := by
  have hfront : (area.take (pos + a.length)).length = pos + a.length := by
    rw [List.length_take]
    omega
  have htake : (area.overwrite (pos + a.length) c).take pos = area.take pos := by
    unfold overwrite
    rw [List.append_assoc, List.take_append_of_le_length (by omega), List.take_take,
      Nat.min_eq_left (by omega)]
  have hdrop : (area.overwrite (pos + a.length) c).drop (pos + a.length) =
      c ++ area.drop (pos + a.length + c.length) := by
    unfold overwrite
    rw [List.append_assoc]
    exact List.drop_left' hfront
  unfold overwrite at htake hdrop ⊢
  rw [htake, hdrop, List.length_append]
  simp only [List.append_assoc, Nat.add_assoc]

end Bytes

namespace Writer

/-! ## Going forward -/

/-- One writer comes after another one: it has the same area, in which it has not gone back and not
past the end, and what lies ahead of it is what lay there before. -/
structure Extends (w w' : Writer) : Prop where
  length_eq : w'.area.length = w.area.length
  pos_le : w.pos ≤ w'.pos
  inside : w.pos ≤ w.area.length → w'.pos ≤ w'.area.length
  ahead_eq : w'.area.drop w'.pos = w.area.drop w'.pos

section Extends

variable {w w' w'' : Writer}

theorem Extends.refl (w : Writer) : Extends w w := ⟨rfl, Nat.le_refl _, id, rfl⟩

theorem Extends.trans (h : Extends w w') (h' : Extends w' w'') : Extends w w'' := by
  refine ⟨h'.length_eq.trans h.length_eq, Nat.le_trans h.pos_le h'.pos_le,
    fun hinside => h'.inside (h.inside hinside), ?_⟩
  obtain ⟨k, hk⟩ := Nat.exists_eq_add_of_le h'.pos_le
  rw [h'.ahead_eq, hk, ← List.drop_drop, h.ahead_eq, List.drop_drop]

theorem extends_fail (w : Writer) : Extends w w.fail := ⟨rfl, Nat.le_refl _, id, rfl⟩

/-- Writing goes forward if it ends inside the area and not before the place reached so far. It may
begin before that place. -/
theorem extends_overwrite {pos : Nat} {data : Bytes} (failed : Bool)
    (hpos : w.pos ≤ pos + data.length) (hfits : pos + data.length ≤ w.area.length) :
    Extends w ⟨w.area.overwrite pos data, pos + data.length, failed⟩ := by
  have hlen : (w.area.overwrite pos data).length = w.area.length := Bytes.length_overwrite hfits
  refine ⟨hlen, hpos, ?_, Bytes.drop_overwrite (Nat.le_refl _)⟩
  intro _
  show pos + data.length ≤ (w.area.overwrite pos data).length
  omega

theorem extends_push (w : Writer) (bytes : Bytes) : Extends w (w.push bytes) := by
  unfold push
  split
  · exact Extends.refl w
  · by_cases hinside : w.pos ≤ w.area.length
    · apply extends_overwrite
      · exact Nat.le_add_right _ _
      · rw [List.length_take]
        omega
    · -- there is no place left, and nothing is written
      have hnone : bytes.take (w.area.length - w.pos) = [] := by
        rw [Nat.sub_eq_zero_of_le (by omega), List.take_zero]
      simp only [hnone, Bytes.overwrite, List.append_nil, List.length_nil, Nat.add_zero,
        List.take_append_drop]
      exact ⟨rfl, Nat.le_refl _, id, rfl⟩

theorem extends_pushWhole (w : Writer) (bytes : Bytes) : Extends w (w.pushWhole bytes) := by
  unfold pushWhole
  split
  · exact Extends.refl w
  · split
    · exact extends_fail w
    · exact extends_overwrite _ (Nat.le_add_right _ _) (by omega)

theorem extends_addContent (w : Writer) (tag : UInt8) (c : Content) :
    Extends w (w.addContent tag c) := by
  cases c with
  | number n => exact (extends_push w _).trans (extends_push _ _)
  | bytes bs =>
    exact ((extends_push w _).trans (extends_push _ _)).trans (extends_pushWhole _ bs)

theorem extends_startEmbedded (w : Writer) (tag : UInt8) : Extends w (w.startEmbedded tag).2 :=
  (extends_push w _).trans (extends_push _ _)

/-- How many bytes a length takes whose message can be closed. -/
theorem length_encode_of_extraLength? {n extra : Nat} (h : extraLength? n = some extra) :
    (Varint.encode n).length = extra + 1 := by
  have hpositive := Varint.length_encode_pos n
  by_cases hshort : n ≤ maxEmbedded
  · rw [extraLength?_eq hshort] at h
    cases h
    omega
  · rw [extraLength?_eq_none (Nat.lt_of_not_le hshort)] at h
    cases h

/-- An embedded message has all bytes behind its placeholder. -/
theorem length_contents (hinside : w.pos ≤ w.area.length) (mark : Mark) :
    ((w.area.take w.pos).drop (mark.pos + 1)).length = w.pos - (mark.pos + 1) := by
  rw [List.length_drop, List.length_take_of_le hinside]

/-- Length and contents of an embedded message end where the writer stands after closing it, whatever
mark it is closed at. -/
theorem extends_endEmbedded (w : Writer) (mark : Mark) : Extends w (w.endEmbedded mark) := by
  unfold endEmbedded
  split
  · exact Extends.refl w
  split
  · exact extends_fail w
  rename_i hbehind
  simp only []
  split
  · exact extends_fail w
  · rename_i extra hextra
    split
    · exact extends_fail w
    · rename_i hroom
      have hlen := length_encode_of_extraLength? hextra
      have hinside : w.pos ≤ w.area.length := by omega
      have hcontents := length_contents hinside mark
      have hend : w.pos + extra = mark.pos +
          (Varint.encode ((w.area.take w.pos).drop (mark.pos + 1)).length ++
            (w.area.take w.pos).drop (mark.pos + 1)).length := by
        rw [List.length_append, hlen, hcontents]
        omega
      rw [hend]
      apply extends_overwrite
      · omega
      · omega

end Extends

/-! ## Calls -/

/-- The calls on a writer. A message may be closed at any mark. -/
inductive Call where
  | add (tag : UInt8) (v : Value)
  | startEmbedded (tag : UInt8)
  | endEmbedded (mark : Mark)

def after (w : Writer) : Call → Writer
  | .add tag v => w.addValue tag v
  | .startEmbedded tag => (w.startEmbedded tag).2
  | .endEmbedded mark => w.endEmbedded mark

def afterAll (w : Writer) (calls : List Call) : Writer := calls.foldl after w

theorem extends_after (w : Writer) (call : Call) : Extends w (w.after call) := by
  cases call with
  | add tag v =>
    show Extends w (w.addValue tag v)
    rw [addValue_eq]
    exact extends_addContent w tag v.content
  | startEmbedded tag => exact extends_startEmbedded w tag
  | endEmbedded mark => exact extends_endEmbedded w mark

theorem extends_afterAll (w : Writer) (calls : List Call) : Extends w (w.afterAll calls) := by
  induction calls generalizing w with
  | nil => exact Extends.refl w
  | cons call calls ih => exact (extends_after w call).trans (ih (w.after call))

/-- A writer that has failed is not changed any more. -/
theorem after_failed {w : Writer} (h : w.failed = true) (call : Call) : w.after call = w := by
  cases call with
  | add tag v =>
    show w.addValue tag v = w
    rw [addValue_eq, addContent_failed h]
  | startEmbedded tag => exact congrArg Prod.snd (startEmbedded_failed h tag)
  | endEmbedded mark => exact endEmbedded_failed h mark

theorem afterAll_failed {w : Writer} (h : w.failed = true) (calls : List Call) :
    w.afterAll calls = w := by
  induction calls with
  | nil => rfl
  | cons call calls ih =>
    show (w.after call).afterAll calls = w
    rw [after_failed h call, ih]

end Writer

/-! ## Writing with every place checked -/

namespace Bytes

/-- Puts a byte in the place of another one. Nothing if there is no such place. -/
def put? (area : Bytes) (i : Nat) (b : UInt8) : Option Bytes :=
  if i < area.length then some (area.overwrite i [b]) else none

/-- Puts the bytes from one place up to another, as they are before, where `dest` is. Nothing if they
do not lie in the area, there or here. -/
def move? (area : Bytes) (here there dest : Nat) : Option Bytes :=
  if here ≤ there ∧ there ≤ area.length ∧ dest + (there - here) ≤ area.length then
    some (area.overwrite dest ((area.take there).drop here))
  else none

/-- Moves the bytes from one place up to another by `extra` places, if there is to be a move. -/
def shift? (area : Bytes) (here there extra : Nat) : Option Bytes :=
  if 0 < extra then area.move? here there (here + extra) else some area

/-- Puts a number in the place of `extra` bytes and one more, byte by byte, with the high bit set on
all but the last. -/
def putNumber? (area : Bytes) (i : Nat) : Nat → Nat → Option Bytes
  | 0, n => area.put? i (UInt8.ofNat n)
  | extra + 1, n => do
    let area ← area.put? i (UInt8.ofNat (n % 128 + 128))
    area.putNumber? (i + 1) extra (n / 128)

end Bytes

namespace Writer

open Reader (distance? slice?)

/-- Appends a byte, or fails if there is no place for it. -/
def pushByte (w : Writer) (b : UInt8) : Writer :=
  if w.failed then w
  else
    match w.area.put? w.pos b with
    | some area => { w with area, pos := w.pos + 1 }
    | none => w.fail

/-- Appends a number byte by byte. -/
def pushNumber (w : Writer) (n : Nat) : Writer :=
  if n < 128 then w.pushByte (UInt8.ofNat n)
  else (w.pushByte (UInt8.ofNat (n % 128 + 128))).pushNumber (n / 128)
termination_by n
decreasing_by omega

/-- Appends a byte string behind its length, or fails if there is no place for it. Nothing if the
place found for it has another length. -/
def addBytesChecked (w : Writer) (tag : UInt8) (bytes : Bytes) : Option Writer :=
  let w := (w.pushNumber (WireKind.lengthDelimited.header tag)).pushNumber bytes.length
  if w.failed then some w
  else
    match slice? w.area w.pos (w.pos + bytes.length) with
    | none => some w.fail
    | some place =>
      if place.length = bytes.length then
        some { w with area := w.area.overwrite w.pos bytes, pos := w.pos + bytes.length }
      else none

/-- Closes an embedded message: moves its contents up, where its length takes more than the one byte
of the placeholder, and puts the length in front of them. Nothing if a distance is asked for the
wrong way round or a place that is not there. -/
def endEmbeddedChecked (w : Writer) (mark : Mark) : Option Writer :=
  if w.failed then some w
  else if w.pos ≤ mark.pos then some w.fail
  else do
    let behind ← distance? mark.pos w.pos
    let length ← distance? 1 behind
    match extraLength? length with
    | none => return w.fail
    | some extra =>
      if w.area.length < w.pos + extra then return w.fail
      else
        let area ← w.area.shift? (mark.pos + 1) w.pos extra
        let area ← area.putNumber? mark.pos extra length
        return { w with area, pos := w.pos + extra }

/-- The calls, written byte by byte, with every place and distance that they ask for checked. -/
def performChecked (w : Writer) : Call → Option Writer
  | .add tag v =>
    match v.content with
    | .number n => some ((w.pushNumber (WireKind.varint.header tag)).pushNumber n)
    | .bytes bytes => w.addBytesChecked tag bytes
  | .startEmbedded tag =>
    some ((w.pushNumber (WireKind.lengthDelimited.header tag)).pushByte 0)
  | .endEmbedded mark => w.endEmbeddedChecked mark

section Checked

variable {w : Writer}

theorem pushByte_room (hok : w.failed = false) (hroom : w.pos < w.area.length) (b : UInt8) :
    w.pushByte b = w.appended [b] := by
  have hput : w.area.put? w.pos b = some (w.area.overwrite w.pos [b]) := if_pos hroom
  unfold pushByte
  rw [if_neg (by rw [hok]; decide), hput]
  rfl

theorem pushByte_full (hok : w.failed = false) (hfull : ¬ w.pos < w.area.length) (b : UInt8) :
    w.pushByte b = w.fail := by
  have hput : w.area.put? w.pos b = none := if_neg hfull
  unfold pushByte
  rw [if_neg (by rw [hok]; decide), hput]

/-- Appending bytes begins with the first of them. -/
theorem push_cons (w : Writer) (b : UInt8) (bytes : Bytes) :
    w.push (b :: bytes) = (w.pushByte b).push bytes := by
  by_cases hfailed : w.failed = true
  · unfold pushByte
    rw [if_pos hfailed, push_failed hfailed, push_failed hfailed]
  have hok : w.failed = false := Bool.eq_false_iff.mpr hfailed
  by_cases hroom : w.pos < w.area.length
  · rw [pushByte_room hok hroom]
    obtain ⟨left, hleft⟩ : ∃ left, w.area.length - w.pos = left + 1 :=
      ⟨w.area.length - w.pos - 1, by omega⟩
    have hleft' : (w.area.overwrite w.pos [b]).length - (w.pos + 1) = left := by
      have hlen : (w.area.overwrite w.pos [b]).length = w.area.length :=
        Bytes.length_overwrite hroom
      omega
    have hboth : (w.area.overwrite w.pos [b]).overwrite (w.pos + 1) (bytes.take left) =
        w.area.overwrite w.pos (b :: bytes.take left) :=
      Bytes.overwrite_append (Nat.le_of_lt hroom)
    unfold push appended
    simp only [hok, hleft, hleft', hboth, Bool.false_eq_true, if_false, List.take_succ_cons,
      List.length_cons, List.length_nil, Nat.zero_add, Nat.add_lt_add_iff_right, Nat.add_assoc,
      Nat.add_comm 1]
  · rw [pushByte_full hok hroom, push_failed (w := w.fail) rfl]
    unfold push
    simp [hok, Nat.sub_eq_zero_of_le (Nat.not_lt.mp hroom), Bytes.overwrite, fail]

theorem push_nil (w : Writer) : w.push [] = w := by
  unfold push
  rcases w with ⟨area, pos, _ | _⟩ <;> simp [Bytes.overwrite]

theorem pushByte_eq (w : Writer) (b : UInt8) : w.pushByte b = w.push [b] := by
  rw [push_cons, push_nil]

theorem pushNumber_eq (w : Writer) (n : Nat) : w.pushNumber n = w.pushVarint n := by
  unfold pushVarint
  induction n using Varint.encode.induct generalizing w with
  | case1 n hn => rw [pushNumber, if_pos hn, Varint.encode, if_pos hn, pushByte_eq]
  | case2 n hn ih => rw [pushNumber, if_neg hn, Varint.encode, if_neg hn, push_cons, ih]

theorem addBytesChecked_eq (w : Writer) (tag : UInt8) (bytes : Bytes) :
    w.addBytesChecked tag bytes = some (w.addBytes tag bytes) := by
  unfold addBytesChecked addBytes
  simp only [pushNumber_eq]
  generalize (w.pushVarint (WireKind.lengthDelimited.header tag)).pushVarint bytes.length = q
  unfold pushWhole slice?
  by_cases hfailed : q.failed = true
  · rw [if_pos hfailed, if_pos hfailed]
  rw [if_neg hfailed, if_neg hfailed]
  by_cases hroom : q.area.length < q.pos + bytes.length
  · rw [if_pos hroom, if_neg (by omega)]
  · have hplace : ((q.area.drop q.pos).take (q.pos + bytes.length - q.pos)).length =
        bytes.length := by
      rw [List.length_take, List.length_drop]
      omega
    rw [if_neg hroom, if_pos (by omega)]
    simp only [if_pos hplace]

/-- A number that has its place is put there as it is spelled. -/
theorem putNumber?_eq {area : Bytes} {i n : Nat} (hfits : i + (Varint.encode n).length ≤ area.length)
    {extra : Nat} (hextra : (Varint.encode n).length = extra + 1) :
    area.putNumber? i extra n = some (area.overwrite i (Varint.encode n)) := by
  induction n using Varint.encode.induct generalizing area i extra with
  | case1 n hn =>
    rw [Varint.encode, if_pos hn] at hfits hextra ⊢
    obtain rfl : extra = 0 := by simpa using hextra.symm
    exact if_pos hfits
  | case2 n hn ih =>
    rw [Varint.encode, if_neg hn] at hfits hextra ⊢
    rw [List.length_cons] at hfits hextra
    have hpositive := Varint.length_encode_pos (n / 128)
    obtain ⟨more, rfl⟩ : ∃ more, extra = more + 1 := ⟨extra - 1, by omega⟩
    rw [Bytes.putNumber?]
    generalize UInt8.ofNat (n % 128 + 128) = b
    have hput : area.put? i b = some (area.overwrite i [b]) := if_pos (by omega)
    have hlen : (area.overwrite i [b]).length = area.length := by
      apply Bytes.length_overwrite
      rw [List.length_singleton]
      omega
    have hrest : (area.overwrite i [b]).putNumber? (i + 1) more (n / 128) =
        some ((area.overwrite i [b]).overwrite (i + 1) (Varint.encode (n / 128))) :=
      ih (by omega) (by omega)
    have hboth : (area.overwrite i [b]).overwrite (i + 1) (Varint.encode (n / 128)) =
        area.overwrite i (b :: Varint.encode (n / 128)) :=
      Bytes.overwrite_append (by omega)
    rw [hput, Option.bind_eq_bind, Option.bind_some, hrest, hboth]

/-- Bytes that stay where they are have been moved by no places. -/
theorem shift?_eq {area : Bytes} {here there extra : Nat} (hle : here ≤ there)
    (hfits : there + extra ≤ area.length) :
    area.shift? here there extra =
      some (area.overwrite (here + extra) ((area.take there).drop here)) := by
  unfold Bytes.shift?
  by_cases hextra : 0 < extra
  · rw [if_pos hextra]
    exact if_pos ⟨hle, by omega, by omega⟩
  · obtain rfl : extra = 0 := by omega
    rw [if_neg hextra, Nat.add_zero, Bytes.overwrite_self hle hfits]

/-- A length is put in front of contents that have made way for it: that is the length followed by the
contents, written over the placeholder and the contents. -/
theorem putNumber?_shifted {area contents : Bytes} {start there extra : Nat} (hlt : start < there)
    (hfits : there + extra ≤ area.length)
    (hcontents : contents = (area.take there).drop (start + 1))
    (hdigits : (Varint.encode contents.length).length = extra + 1) :
    ((area.shift? (start + 1) there extra).bind fun moved =>
      moved.putNumber? start extra contents.length) =
      some (area.overwrite start (Varint.encode contents.length ++ contents)) := by
  have hlen : contents.length = there - (start + 1) := by
    rw [hcontents, List.length_drop, List.length_take_of_le (by omega)]
  have hshift : start + 1 + extra = start + (Varint.encode contents.length).length := by
    omega
  have hmoved : (area.overwrite (start + 1 + extra) contents).length = area.length :=
    Bytes.length_overwrite (by omega)
  have hput : (area.overwrite (start + 1 + extra) contents).putNumber? start extra
        contents.length =
      some ((area.overwrite (start + 1 + extra) contents).overwrite start
        (Varint.encode contents.length)) :=
    putNumber?_eq (by omega) hdigits
  rw [shift?_eq (by omega) hfits, ← hcontents, Option.bind_some, hput, hshift,
    Bytes.overwrite_before (by omega)]

theorem endEmbeddedChecked_eq (hinside : w.pos ≤ w.area.length) (mark : Mark) :
    w.endEmbeddedChecked mark = some (w.endEmbedded mark) := by
  unfold endEmbeddedChecked endEmbedded
  by_cases hfailed : w.failed = true
  · rw [if_pos hfailed, if_pos hfailed]
  rw [if_neg hfailed, if_neg hfailed]
  by_cases hbehind : w.pos ≤ mark.pos
  · rw [if_pos hbehind, if_pos hbehind]
  rw [if_neg hbehind, if_neg hbehind]
  have hdistance : distance? mark.pos w.pos = some (w.pos - mark.pos) := if_pos (by omega)
  have hcontents := length_contents hinside mark
  have hlength : distance? 1 (w.pos - mark.pos) =
      some ((w.area.take w.pos).drop (mark.pos + 1)).length := by
    rw [hcontents]
    exact if_pos (by omega)
  simp only [hdistance, hlength, Option.bind_eq_bind, Option.bind_some]
  cases hextra : extraLength? ((w.area.take w.pos).drop (mark.pos + 1)).length with
  | none => rfl
  | some extra =>
    simp only []
    by_cases hroom : w.area.length < w.pos + extra
    · rw [if_pos hroom, if_pos hroom]
      rfl
    rw [if_neg hroom, if_neg hroom, ← Option.bind_assoc,
      putNumber?_shifted (by omega) (by omega) rfl (length_encode_of_extraLength? hextra)]
    rfl

/-- Inside the area, checking makes no difference: whatever is called, there is a place for all that
is written. -/
theorem performChecked_eq (hinside : w.pos ≤ w.area.length) (call : Call) :
    w.performChecked call = some (w.after call) := by
  cases call with
  | add tag v =>
    show _ = some (w.addValue tag v)
    rw [performChecked, addValue_eq]
    cases v.content with
    | number n =>
      simp only [pushNumber_eq]
      rfl
    | bytes bytes => exact addBytesChecked_eq w tag bytes
  | startEmbedded tag =>
    rw [performChecked, pushNumber_eq, pushByte_eq]
    rfl
  | endEmbedded mark => exact endEmbeddedChecked_eq hinside mark

end Checked

/-- A writer is safe to call in any order. Whatever calls have been made on it, in an area of
whatever size, with embedded messages closed at any marks: it has not passed the end of the area, and
what lies ahead of it is what lay there in the beginning. Whichever call comes next, the writer does
not go back, and every byte that is written, and every byte that is moved, has its place in the area.
Once something has failed, the calls that follow change nothing, neither the area nor the place that
has been reached nor the failure, and the caller is told in the end. -/
theorem forward_in_any_order (area : Bytes) (calls : List Call) :
    let w := (new area).afterAll calls
    (w.area.length = area.length ∧ w.pos ≤ area.length ∧ w.area.drop w.pos = area.drop w.pos) ∧
      (∀ call, w.pos ≤ (w.after call).pos ∧ w.performChecked call = some (w.after call)) ∧
      (w.failed = true →
        w.finish = .error .encoding ∧ ∀ later, w.afterAll later = w) := by
  intro w
  have h : Extends (new area) w := extends_afterAll (new area) calls
  have hlen : w.area.length = area.length := h.length_eq
  have hinside : w.pos ≤ w.area.length := h.inside (Nat.zero_le _)
  refine ⟨⟨hlen, ?_, h.ahead_eq⟩, ?_, ?_⟩
  · rw [← hlen]
    exact hinside
  · intro call
    exact ⟨(extends_after w call).pos_le, performChecked_eq hinside call⟩
  · intro hfailed
    exact ⟨if_pos hfailed, afterAll_failed hfailed⟩

/-- A message that has never been opened is closed at a mark that comes from another writer. -/
example :
    (new (Bytes.zeros 6)).afterAll [.add 1 (.uint32 5), .add 2 (.uint32 6), .endEmbedded ⟨1⟩] =
      ⟨[8, 2, 16, 6, 0, 0], 4, false⟩ := by
  decide +kernel

end Writer

end NoiseChannel
