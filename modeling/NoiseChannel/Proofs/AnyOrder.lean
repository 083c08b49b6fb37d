import NoiseChannel.Proofs.Embedded

/-!
# A reader called in any order

The calls on a reader are not bound to an order: values may be read before a field has been found or
in the wrong form, and an embedded message may be left with a boundary that belongs to another one.
Whatever is called, the reader and the bytes of the present field stay inside the input
(`InBounds.after`), as long as every boundary has been given out by the reader itself. Hence nothing
is looked at that is not there: reading with every access checked never finds one out of range
(`performChecked_eq`). From the first failure on, calls give nothing and change nothing
(`perform_failing`, `after_idle`).
-/

namespace NoiseChannel

namespace Varint

theorem scan_used_le (place : Nat) (bs : Bytes) : (scan place bs).2 ≤ bs.length := by
  induction bs generalizing place with
  | nil => exact Nat.le_refl 0
  | cons b bs ih =>
    have hrest := ih (place + 1)
    rw [scan, List.length_cons]
    split
    · exact Nat.succ_le_succ (Nat.zero_le _)
    · split
      · exact Nat.succ_le_succ (Nat.zero_le _)
      · exact Nat.succ_le_succ hrest

end Varint

/-- What a reading in a given form gives once something has failed. -/
def ValueForm.neutral : ValueForm → Value
  | .bool => .bool false
  | .uint32 => .uint32 0
  | .uint64 => .uint64 0
  | .int32 => .int32 0
  | .int64 => .int64 0
  | .bytes => .bytes []
  | .string => .string ""

namespace Reader

/-! ## Staying inside the input -/

/-- The reader has not passed the end of its message, the message ends inside the input, and the
bytes of the present field lie before the reader. -/
structure InBounds (input : Bytes) (r : Reader) : Prop where
  input_eq : r.input = input
  pos_le : r.pos ≤ r.stop
  stop_le : r.stop ≤ input.length
  bytes_le : r.kind = some .lengthDelimited → r.start + r.value ≤ r.pos

theorem inBounds_new (input : Bytes) : InBounds input (new input) where
  input_eq := rfl
  pos_le := Nat.zero_le _
  stop_le := Nat.le_refl _
  bytes_le := nofun

section InBounds

variable {input : Bytes} {r : Reader}

theorem InBounds.fail (h : InBounds input r) : InBounds input r.fail :=
  ⟨h.input_eq, h.pos_le, h.stop_le, h.bytes_le⟩

theorem InBounds.skip (h : InBounds input r) {n : Nat} (hn : r.pos + n ≤ r.stop) :
    InBounds input (r.skip n) :=
  ⟨h.input_eq, hn, h.stop_le, fun hkind => Nat.le_add_right_of_le (h.bytes_le hkind)⟩

theorem InBounds.number (h : InBounds input r) : InBounds input r.number.2 := by
  have hused :=
    Varint.scan_used_le 0 ((r.input.drop r.pos).take (min Varint.maxLength (r.stop - r.pos)))
  have hpos := h.pos_le
  rw [List.length_take] at hused
  rw [Reader.number]
  split
  · rename_i n used hscan
    rw [hscan] at hused
    exact h.skip (by omega)
  · rename_i used hscan
    rw [hscan] at hused
    exact (h.skip (by omega)).fail

theorem InBounds.fieldValue (h : InBounds input r) (kind : WireKind) :
    InBounds input (r.fieldValue kind) := by
  have hnumber := h.number
  rw [Reader.fieldValue]
  rcases hn : r.number with ⟨_ | n, q⟩
  · rw [hn] at hnumber
    exact hnumber
  · rw [hn] at hnumber
    cases kind with
    | varint =>
      refine ⟨hnumber.input_eq, hnumber.pos_le, hnumber.stop_le, fun hkind => ?_⟩
      cases hkind
    | lengthDelimited =>
      have hpos : q.pos ≤ q.stop := hnumber.pos_le
      simp only []
      split
      · exact hnumber.fail
      · rename_i hfits
        have hroom : q.pos + n ≤ q.stop := by omega
        exact ⟨hnumber.input_eq, hroom, hnumber.stop_le, fun _ => Nat.le_refl _⟩

theorem InBounds.next (h : InBounds input r) : InBounds input r.next.2 := by
  have hnumber := h.number
  rw [Reader.next]
  split
  · exact h
  rcases hn : r.number with ⟨_ | header, q⟩
  · rw [hn] at hnumber
    exact hnumber
  · rw [hn] at hnumber
    simp only []
    split
    · exact hnumber.fail
    · split
      · exact hnumber.fail
      · exact hnumber.fieldValue _

/-- Entering goes back to where the bytes begin, and they end where the reader is, or before. -/
theorem InBounds.startEmbedded (h : InBounds input r) : InBounds input r.startEmbedded.2 := by
  rw [Reader.startEmbedded]
  split
  · exact h
  · split
    · rename_i hkind
      have hbytes := h.bytes_le hkind
      have hstart : r.start ≤ r.pos := by omega
      refine ⟨h.input_eq, hstart, Nat.le_trans h.pos_le h.stop_le, fun hnone => ?_⟩
      cases hnone
    · exact h.fail

/-- A boundary may take the end of the message back to where it was, and no further. -/
theorem InBounds.endEmbedded (h : InBounds input r) {outer : Boundary}
    (houter : outer.pos ≤ input.length) : InBounds input (r.endEmbedded outer) := by
  rw [Reader.endEmbedded]
  split
  · exact h
  · split
    · exact h.fail
    · rename_i hinside
      refine ⟨h.input_eq, Nat.not_lt.mp hinside, houter, fun hnone => ?_⟩
      cases hnone

/-- Every call keeps the reader inside its input, if a boundary that is handed back does not lie
outside. -/
theorem InBounds.after (h : InBounds input r) {call : Call}
    (houter : ∀ outer, call = .endEmbedded outer → outer.pos ≤ input.length) :
    InBounds input (r.after call) := by
  cases call with
  | next => exact h.next
  | read form =>
    show InBounds input (r.readValue form).2
    rcases readValue_snd r form with hread | hread
    · rw [hread]
      exact h
    · rw [hread]
      exact h.fail
  | kind => exact h
  | finish => exact h
  | startEmbedded => exact h.startEmbedded
  | endEmbedded outer => exact h.endEmbedded (houter outer rfl)

/-- The boundary given out is the end of a message. -/
theorem InBounds.outer_le (h : InBounds input r) : r.startEmbedded.1.pos ≤ input.length := by
  rw [Reader.startEmbedded]
  split
  · exact Nat.zero_le _
  · split
    · exact h.stop_le
    · exact Nat.zero_le _

end InBounds

/-! ## Boundaries that are handed back -/

/-- Every boundary that the calls hand back has been given out by one of them before or is among
those given out already. It may be handed back more than once, and in any order. -/
def HandsBack : List Boundary → Reader → List Call → Prop
  | _, _, [] => True
  | given, r, .startEmbedded :: calls =>
    HandsBack (r.startEmbedded.1 :: given) (r.after .startEmbedded) calls
  | given, r, .endEmbedded outer :: calls =>
    outer ∈ given ∧ HandsBack given (r.after (.endEmbedded outer)) calls
  | given, r, call :: calls => HandsBack given (r.after call) calls

theorem InBounds.afterAll {input : Bytes} {r : Reader} (h : InBounds input r)
    {given : List Boundary} (hgiven : ∀ outer ∈ given, outer.pos ≤ input.length)
    {calls : List Call} (hback : HandsBack given r calls) : InBounds input (r.afterAll calls) := by
  induction calls generalizing r given with
  | nil => exact h
  | cons call calls ih =>
    cases call with
    | next => exact ih (h.after nofun) hgiven hback
    | read form => exact ih (h.after nofun) hgiven hback
    | kind => exact ih (h.after nofun) hgiven hback
    | finish => exact ih (h.after nofun) hgiven hback
    | startEmbedded =>
      refine ih (h.after nofun) ?_ hback
      intro outer houter
      rcases List.mem_cons.mp houter with rfl | houter
      · exact h.outer_le
      · exact hgiven outer houter
    | endEmbedded outer =>
      obtain ⟨hmem, hlater⟩ := hback
      refine ih (h.after ?_) hgiven hlater
      rintro _ ⟨⟩
      exact hgiven outer hmem

/-! ## Reading with every access checked -/

/-- How far one place lies before another; nothing if it lies behind it. -/
def distance? (here there : Nat) : Option Nat := if here ≤ there then some (there - here) else none

/-- The bytes from one place up to another; nothing if the places are out of order or the second one
is not inside. -/
def slice? (bs : Bytes) (here there : Nat) : Option Bytes :=
  if here ≤ there ∧ there ≤ bs.length then some ((bs.drop here).take (there - here)) else none

/-- Reads a number byte by byte up to the end of the message, the next byte standing at a given place
of it. Nothing if a byte is asked for that is not there. -/
def numberChecked (place : Nat) (r : Reader) : Option (Option Nat × Reader) :=
  if r.stop ≤ r.pos then some (none, r.fail)
  else
    match r.input[r.pos]? with
    | none => none
    | some b =>
      if place = Varint.maxLength - 1 && 1 < b then some (none, (r.skip 1).fail)
      else if b < 128 then some (some b.toNat, r.skip 1)
      else
        (numberChecked (place + 1) (r.skip 1)).map fun (rest, r) =>
          (rest.map fun n => b.toNat % 128 + 128 * n, r)
termination_by r.stop - r.pos
decreasing_by
  simp only [skip]
  omega

/-- Reads the value of a field. Nothing if something is asked for that is not there. -/
def fieldValueChecked (kind : WireKind) (r : Reader) : Option Reader := do
  match ← r.numberChecked 0 with
  | (none, r) => return r
  | (some n, r) =>
    match kind with
    | .varint => return { r with value := n, kind := some .varint }
    | .lengthDelimited =>
      let room ← distance? r.pos r.stop
      if room < n then return r.fail
      else
        return { r with value := n, start := r.pos, pos := r.pos + n, kind := some .lengthDelimited }

/-- Advances to the next field. Nothing if something is asked for that is not there. -/
def nextChecked (r : Reader) : Option (Option UInt8 × Reader) :=
  if r.failed || r.stop ≤ r.pos then some (none, r)
  else do
    match ← r.numberChecked 0 with
    | (none, r) => return (none, r)
    | (some header, r) =>
      if 2048 ≤ header then return (none, r.fail)
      else
        match WireKind.ofCode? (header % 8) with
        | none => return (none, r.fail)
        | some kind =>
          let r ← r.fieldValueChecked kind
          return (if r.failed then none else some (UInt8.ofNat (header / 8)), r)

/-- Takes the present byte string out of the input. Nothing if it does not lie in there. -/
def readBytesChecked (r : Reader) : Option (Bytes × Reader) :=
  if r.failed then some ([], r)
  else if r.kind = some .lengthDelimited then
    (slice? r.input r.start (r.start + r.value)).map fun bs => (bs, r)
  else some ([], r.fail)

/-- Takes the present byte string out of the input as a text. Nothing if it does not lie in there. -/
def readStringChecked (r : Reader) : Option (String × Reader) :=
  r.readBytesChecked.map fun (bytes, r) =>
    match bytes.toString? with
    | some s => (s, r)
    | none => ("", r.fail)

/-- The calls, with every byte, slice and distance that they ask for checked. The other calls ask for
none. -/
def performChecked (r : Reader) : Call → Option (Answer × Reader)
  | .next => r.nextChecked.map fun (tag, r) => (.tag tag, r)
  | .read .bytes => r.readBytesChecked.map fun (bytes, r) => (.value (.bytes bytes), r)
  | .read .string => r.readStringChecked.map fun (s, r) => (.value (.string s), r)
  | call => some (r.perform call)

section Checked

variable {input : Bytes} {r : Reader} {place : Nat}

/-- What is read of a number whose next byte stands at a given place of it. -/
def numberFrom (place : Nat) (r : Reader) : Option Nat × Reader :=
  let ahead := (r.input.drop r.pos).take (min (Varint.maxLength - place) (r.stop - r.pos))
  match Varint.scan place ahead with
  | (some n, used) => (some n, r.skip used)
  | (none, used) => (none, (r.skip used).fail)

theorem numberFrom_end (h : r.stop ≤ r.pos) : r.numberFrom place = (none, r.fail) := by
  rw [numberFrom, Nat.sub_eq_zero_of_le h, Nat.min_zero, List.take_zero]
  rfl

theorem numberFrom_byte (hplace : place < Varint.maxLength) (hpos : r.pos < r.stop) {b : UInt8}
    (hb : r.input[r.pos]? = some b) :
    r.numberFrom place =
      if place = Varint.maxLength - 1 && 1 < b then (none, (r.skip 1).fail)
      else if b < 128 then (some b.toNat, r.skip 1)
      else ((r.skip 1).numberFrom (place + 1)).map
        (fun rest => rest.map fun n => b.toNat % 128 + 128 * n) id := by
  obtain ⟨hlt, hget⟩ := List.getElem?_eq_some_iff.mp hb
  have hroom : min (Varint.maxLength - place) (r.stop - r.pos) =
      min (Varint.maxLength - (place + 1)) (r.stop - (r.pos + 1)) + 1 := by omega
  rw [numberFrom, List.drop_eq_getElem_cons hlt, hget, hroom]
  simp only [List.take_succ_cons, Varint.scan]
  by_cases hlast : (place = Varint.maxLength - 1 && 1 < b) = true
  · simp only [if_pos hlast]
  · by_cases hend : b < 128
    · simp only [if_neg hlast, if_pos hend]
    · simp only [if_neg hlast, if_neg hend, numberFrom, skip]
      rcases Varint.scan (place + 1) ((r.input.drop (r.pos + 1)).take
        (min (Varint.maxLength - (place + 1)) (r.stop - (r.pos + 1)))) with ⟨_ | n, used⟩
      · simp only [Option.map_none, Prod.map_apply, id_eq, Nat.add_comm used 1, Nat.add_assoc]
      · simp only [Option.map_some, Prod.map_apply, id_eq, Nat.add_comm used 1, Nat.add_assoc]

theorem numberChecked_eq (h : InBounds input r) (hplace : place < Varint.maxLength) :
    r.numberChecked place = some (r.numberFrom place) := by
  induction hleft : r.stop - r.pos generalizing r place with
  | zero =>
    have hend : r.stop ≤ r.pos := Nat.le_of_sub_eq_zero hleft
    rw [numberChecked, if_pos hend, numberFrom_end hend]
  | succ left ih =>
    have hpos : r.pos < r.stop := by omega
    have hlt : r.pos < r.input.length := by
      rw [h.input_eq]
      exact Nat.lt_of_lt_of_le hpos h.stop_le
    have hb : r.input[r.pos]? = some r.input[r.pos] := List.getElem?_eq_getElem hlt
    rw [numberChecked, if_neg (Nat.not_le.mpr hpos), hb, numberFrom_byte hplace hpos hb]
    simp only []
    split
    · rfl
    · rename_i hfits
      split
      · rfl
      · rename_i hmore
        -- the byte at the last place has no high bit
        have hnotlast : place + 1 < Varint.maxLength := by
          by_contra hlast
          have hnine : place = Varint.maxLength - 1 := by omega
          have hone : 1 < r.input[r.pos] := by
            rw [UInt8.lt_iff_toNat_lt] at hmore ⊢
            exact Nat.lt_of_lt_of_le (by decide) (Nat.not_lt.mp hmore)
          simp [hnine, hone] at hfits
        have hleft' : (r.skip 1).stop - (r.skip 1).pos = left := by
          simp only [skip]
          omega
        rw [ih (h.skip hpos) hnotlast hleft']
        rfl

theorem fieldValueChecked_eq (h : InBounds input r) (kind : WireKind) :
    r.fieldValueChecked kind = some (r.fieldValue kind) := by
  have hnumber := h.number
  rw [fieldValueChecked, fieldValue, numberChecked_eq h (by decide)]
  show (match r.number with | (none, r) => _ | (some n, r) => _) = _
  rcases hn : r.number with ⟨_ | n, q⟩
  · rfl
  · rw [hn] at hnumber
    cases kind with
    | varint => rfl
    | lengthDelimited =>
      have hpos : q.pos ≤ q.stop := hnumber.pos_le
      simp only [distance?, if_pos hpos]
      by_cases hlong : q.stop - q.pos < n
      · simp [hlong]
      · simp [hlong]

theorem nextChecked_eq (h : InBounds input r) : r.nextChecked = some r.next := by
  have hnumber := h.number
  rw [nextChecked, next]
  split
  · rfl
  · rw [numberChecked_eq h (by decide)]
    show (match r.number with | (none, r) => _ | (some n, r) => _) = _
    rcases hn : r.number with ⟨_ | header, q⟩
    · rfl
    · rw [hn] at hnumber
      simp only []
      split
      · rfl
      · cases WireKind.ofCode? (header % 8) with
        | none => rfl
        | some kind =>
          simp only []
          rw [fieldValueChecked_eq hnumber kind]
          rfl

theorem readBytesChecked_eq (h : InBounds input r) : r.readBytesChecked = some r.readBytes := by
  rw [readBytesChecked, readBytes]
  split
  · rfl
  · split
    · rename_i hkind
      have hinside : r.start ≤ r.start + r.value ∧ r.start + r.value ≤ r.input.length := by
        have hbytes := h.bytes_le hkind
        have hpos := h.pos_le
        have hstop := h.stop_le
        rw [h.input_eq]
        omega
      rw [slice?, if_pos hinside, Nat.add_sub_cancel_left]
      rfl
    · rfl

/-- Inside the input, checking makes no difference: whatever is called, all that is looked at is
there. -/
theorem performChecked_eq (h : InBounds input r) (call : Call) :
    r.performChecked call = some (r.perform call) := by
  cases call with
  | next =>
    rw [performChecked, nextChecked_eq h]
    rfl
  | read form =>
    cases form with
    | bytes =>
      rw [performChecked, readBytesChecked_eq h]
      rfl
    | string =>
      rw [performChecked, readStringChecked, readBytesChecked_eq h]
      rfl
    | bool | uint32 | uint64 | int32 | int64 => rfl
  | kind | finish | startEmbedded | endEmbedded => rfl

end Checked

/-! ## From the first failure on -/

/-- What a call gives on a reader that has failed. -/
def idle (r : Reader) : Call → Answer
  | .next => .tag none
  | .read form => .value form.neutral
  | .kind => .kind r.kind
  | .finish => .finished (.error .malformed)
  | .startEmbedded => .entered ⟨0⟩
  | .endEmbedded _ => .left

section Failure

variable {r : Reader}

theorem fail_eq_self (h : r.failed = true) : r.fail = r := by
  cases r
  cases h
  rfl

theorem next_failing (h : r.next.2.failed = true) : r.next.1 = none := by
  rcases hnext : r.next with ⟨_ | tag, q⟩
  · rfl
  · rw [hnext] at h
    exact absurd h (Bool.eq_false_iff.mp (found_of_next hnext).failed_eq)

theorem readNumber_failing (h : r.readNumber.2.failed = true) : r.readNumber.1 = none := by
  unfold readNumber at h ⊢
  split
  · rfl
  · rename_i hok
    split
    · rename_i hkind
      rw [if_neg hok, if_pos hkind] at h
      exact absurd h hok
    · rfl

theorem readShortNumber_failing (h : r.readShortNumber.2.failed = true) :
    r.readShortNumber.1 = 0 := by
  have hread := @readNumber_failing r
  unfold readShortNumber at h ⊢
  rcases hn : r.readNumber with ⟨_ | n, q⟩
  · rfl
  · rw [hn] at h hread
    by_cases hshort : n < UInt32.size
    · simp only [if_pos hshort] at h
      cases hread h
    · simp only [if_neg hshort]

theorem readBytes_failing (h : r.readBytes.2.failed = true) : r.readBytes.1 = [] := by
  unfold readBytes at h ⊢
  split
  · rfl
  · rename_i hok
    split
    · rename_i hkind
      rw [if_neg hok, if_pos hkind] at h
      exact absurd h hok
    · rfl

theorem readString_failing (h : r.readString.2.failed = true) : r.readString.1 = "" := by
  have hread := @readBytes_failing r
  unfold readString at h ⊢
  rcases hb : r.readBytes with ⟨bytes, q⟩
  rw [hb] at h hread
  cases hs : bytes.toString? with
  | none => simp only [hs]
  | some s =>
    simp only [hs] at h ⊢
    obtain rfl : bytes = [] := hread h
    cases hs
    rfl

theorem readValue_failing {form : ValueForm} (h : (r.readValue form).2.failed = true) :
    (r.readValue form).1 = form.neutral := by
  cases form with
  | bool =>
    show Value.bool (r.readNumber.1.any (· ≠ 0)) = .bool false
    rw [readNumber_failing h]
    rfl
  | uint32 =>
    show Value.uint32 (UInt32.ofNat r.readShortNumber.1) = .uint32 0
    rw [readShortNumber_failing h]
    rfl
  | uint64 =>
    show Value.uint64 (UInt64.ofNat (r.readNumber.1.getD 0)) = .uint64 0
    rw [readNumber_failing h]
    rfl
  | int32 =>
    show Value.int32 (Int32.ofInt (Varint.unzigzag r.readShortNumber.1)) = .int32 0
    rw [readShortNumber_failing h]
    rfl
  | int64 =>
    show Value.int64 (Int64.ofInt (Varint.unzigzag (r.readNumber.1.getD 0))) = .int64 0
    rw [readNumber_failing h]
    rfl
  | bytes => exact congrArg Value.bytes (readBytes_failing h)
  | string => exact congrArg Value.string (readString_failing h)

theorem startEmbedded_failing (h : r.startEmbedded.2.failed = true) :
    r.startEmbedded.1 = ⟨0⟩ := by
  unfold startEmbedded at h ⊢
  split
  · rfl
  · rename_i hok
    split
    · rename_i hkind
      rw [if_neg hok, if_pos hkind] at h
      exact absurd h hok
    · rfl

/-- The call that fails gives nothing, and neither does any call on a reader that has failed. -/
theorem perform_failing {call : Call} (h : (r.after call).failed = true) :
    (r.perform call).1 = r.idle call := by
  cases call with
  | next => exact congrArg Answer.tag (next_failing h)
  | read form => exact congrArg Answer.value (readValue_failing h)
  | kind => rfl
  | finish =>
    have hfailed : r.failed = true := h
    exact congrArg Answer.finished (if_pos hfailed)
  | startEmbedded => exact congrArg Answer.entered (startEmbedded_failing h)
  | endEmbedded outer => rfl

/-- A reader that has failed is not changed any more. -/
theorem after_idle (h : r.failed = true) (call : Call) : r.after call = r := by
  cases call with
  | next =>
    show r.next.2 = r
    rw [next, h, Bool.true_or, if_pos rfl]
  | read form =>
    show (r.readValue form).2 = r
    rcases readValue_snd r form with hread | hread
    · exact hread
    · rw [hread, fail_eq_self h]
  | kind => rfl
  | finish => rfl
  | startEmbedded =>
    show r.startEmbedded.2 = r
    rw [startEmbedded, if_pos h]
  | endEmbedded outer =>
    show r.endEmbedded outer = r
    rw [endEmbedded, if_pos h]

theorem afterAll_idle (h : r.failed = true) (calls : List Call) : r.afterAll calls = r := by
  induction calls with
  | nil => rfl
  | cons call calls ih => rw [afterAll_cons, after_idle h, ih]

theorem answers_idle (h : r.failed = true) (calls : List Call) :
    r.answers calls = calls.map r.idle := by
  induction calls with
  | nil => rfl
  | cons call calls ih =>
    have hfailed : (r.after call).failed = true := after_failed h call
    rw [answers, List.map_cons, perform_failing hfailed, after_idle h, ih]

end Failure

/-- A reader is safe to call in any order. Whatever calls have been made on it, values read before a
field has been found, over again or in the wrong form, embedded messages left with any boundary that
the reader has given out before, again or out of order: the reader has not passed the end of its
message, which lies inside the input, and so do the bytes of the present field. Whichever call comes
next, it looks at nothing that is not there. The call that fails, and every call after it, gives
nothing: no field, zero, false, no bytes, the boundary zero. Once it has failed, the reader is not
changed any more, and the input counts as malformed for good. -/
theorem safe_in_any_order {input : Bytes} {calls : List Call}
    (hback : HandsBack [] (new input) calls) :
    let r := (new input).afterAll calls
    (r.input = input ∧ r.pos ≤ r.stop ∧ r.stop ≤ input.length) ∧
      (r.kind = some .lengthDelimited → r.start + r.value ≤ input.length) ∧
      (∀ call, r.performChecked call = some (r.perform call)) ∧
      ∀ call, (r.after call).failed = true →
        (r.perform call).1 = r.idle call ∧ (r.after call).finish = .error .malformed ∧
          ∀ later, (r.after call).answers later = later.map (r.after call).idle ∧
            (r.after call).afterAll later = r.after call := by
  intro r
  have h : InBounds input r :=
    (inBounds_new input).afterAll (fun _ hmem => absurd hmem List.not_mem_nil) hback
  refine ⟨⟨h.input_eq, h.pos_le, h.stop_le⟩, ?_, performChecked_eq h, ?_⟩
  · intro hkind
    have hpos := h.pos_le
    have hstop := h.stop_le
    exact Nat.le_trans (h.bytes_le hkind) (Nat.le_trans hpos hstop)
  · intro call hfailed
    exact ⟨perform_failing hfailed, if_pos hfailed,
      fun later => ⟨answers_idle hfailed later, afterAll_idle hfailed later⟩⟩

/-- Two messages are entered, one inside the other. The inner one is left with the boundary of the
outer one, which takes the end back to that of the input; the same boundary is used once more, and
then a number is read where there is no field. -/
theorem safe_in_any_order_crossed :
    let calls : List Call := [.next, .startEmbedded, .next, .startEmbedded, .endEmbedded ⟨10⟩,
      .next, .endEmbedded ⟨10⟩]
    let r := (new [0x0A, 6, 0x12, 2, 0x18, 1, 0x20, 1, 0x28, 7]).afterAll calls
    let q := r.after (.read .uint32)
    (r.pos ≤ r.stop ∧ r.stop ≤ 10) ∧ r.performChecked .next = some (r.perform .next) ∧
      (r.perform (.read .uint32)).1 = .value (.uint32 0) ∧
      q.answers [.next, .startEmbedded, .endEmbedded ⟨8⟩, .finish] =
        [.tag none, .entered ⟨0⟩, .left, .finished (.error .malformed)] := by
  intro calls r q
  have hback : HandsBack [] (new [0x0A, 6, 0x12, 2, 0x18, 1, 0x20, 1, 0x28, 7]) calls := by
    have hgiven : (⟨10⟩ : Boundary) ∈ [⟨8⟩, ⟨10⟩] := by decide
    exact ⟨hgiven, hgiven, trivial⟩
  have hfailed : q.failed = true := by decide +kernel
  obtain ⟨⟨-, hpos, hstop⟩, -, hchecked, hfailing⟩ := safe_in_any_order hback
  obtain ⟨hanswer, -, hlater⟩ := hfailing (.read .uint32) hfailed
  exact ⟨⟨hpos, hstop⟩, hchecked .next, hanswer, (hlater _).1⟩

end Reader

end NoiseChannel
