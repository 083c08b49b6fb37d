import NoiseChannel.Proofs.RoundTrip

/-!
# Calls on a reader

The calls on a reader in any order, what they give and what they leave. A failure stays, whatever is
called (`afterAll_failed`). How a reader goes on depends on the place that it has reached, and on
the present field as far as there is one: if these are the same, all calls give the same
(`Alike.answers`).
-/

namespace NoiseChannel

namespace Reader

/-! ## Calls -/

/-- The calls on a reader. -/
inductive Call where
  | next
  | read (form : ValueForm)
  | kind
  | finish
  | startEmbedded
  | endEmbedded (outer : Boundary)

/-- What a call gives back. -/
inductive Answer where
  | tag (tag : Option UInt8)
  | value (v : Value)
  | kind (kind : Option WireKind)
  | finished (result : Except LinkError Unit)
  | entered (outer : Boundary)
  | left

def perform (r : Reader) : Call → Answer × Reader
  | .next => r.next.map .tag id
  | .read form => (r.readValue form).map .value id
  | .kind => (.kind r.kind, r)
  | .finish => (.finished r.finish, r)
  | .startEmbedded => r.startEmbedded.map .entered id
  | .endEmbedded outer => (.left, r.endEmbedded outer)

def after (r : Reader) (call : Call) : Reader := (r.perform call).2

def afterAll (r : Reader) (calls : List Call) : Reader := calls.foldl after r

/-- What the calls give, one after the other. -/
def answers : Reader → List Call → List Answer
  | _, [] => []
  | r, call :: calls => (r.perform call).1 :: (r.after call).answers calls

theorem afterAll_cons (r : Reader) (call : Call) (calls : List Call) :
    r.afterAll (call :: calls) = (r.after call).afterAll calls := rfl

theorem afterAll_append (r : Reader) (calls calls' : List Call) :
    r.afterAll (calls ++ calls') = (r.afterAll calls).afterAll calls' := List.foldl_append

/-! ## What the next calls depend on -/

/-- The readers have reached the same place of the same message. -/
structure Level (r r' : Reader) : Prop where
  input_eq : r'.input = r.input
  pos_eq : r'.pos = r.pos
  stop_eq : r'.stop = r.stop
  failed_eq : r'.failed = r.failed

/-- The readers have reached the same place, and the present field, if there is one, is the same. -/
structure Alike (r r' : Reader) : Prop extends Level r r' where
  kind_eq : r'.kind = r.kind
  value_eq : r.kind ≠ none → r'.value = r.value
  start_eq : r.kind = some .lengthDelimited → r'.start = r.start

section Alike

variable {r r' : Reader}

theorem Level.fail (h : Level r r') : Level r.fail r'.fail :=
  ⟨h.input_eq, h.pos_eq, h.stop_eq, rfl⟩

theorem Alike.fail (h : Alike r r') : Alike r.fail r'.fail :=
  ⟨h.toLevel.fail, h.kind_eq, h.value_eq, h.start_eq⟩

theorem Level.number (h : Level r r') :
    r'.number.1 = r.number.1 ∧ Level r.number.2 r'.number.2 ∧
      (Alike r r' → Alike r.number.2 r'.number.2) := by
  have hahead : (r'.input.drop r'.pos).take (min Varint.maxLength (r'.stop - r'.pos)) =
      (r.input.drop r.pos).take (min Varint.maxLength (r.stop - r.pos)) := by
    rw [h.input_eq, h.pos_eq, h.stop_eq]
  rw [Reader.number, Reader.number, hahead]
  split
  · rename_i n used _
    have hmoved : Level { r with pos := r.pos + used } { r' with pos := r'.pos + used } :=
      ⟨h.input_eq, congrArg (· + used) h.pos_eq, h.stop_eq, h.failed_eq⟩
    exact ⟨rfl, hmoved, fun hlike => ⟨hmoved, hlike.kind_eq, hlike.value_eq, hlike.start_eq⟩⟩
  · rename_i used _
    have hmoved : Level { r with pos := r.pos + used } { r' with pos := r'.pos + used } :=
      ⟨h.input_eq, congrArg (· + used) h.pos_eq, h.stop_eq, h.failed_eq⟩
    exact ⟨rfl, hmoved.fail, fun hlike =>
      Alike.fail ⟨hmoved, hlike.kind_eq, hlike.value_eq, hlike.start_eq⟩⟩

theorem Level.fieldValue (h : Level r r') (kind : WireKind) :
    Level (r.fieldValue kind) (r'.fieldValue kind) ∧
      ((r.fieldValue kind).failed = false ∨ Alike r r' →
        Alike (r.fieldValue kind) (r'.fieldValue kind)) := by
  obtain ⟨hsame, hlevel, hlike⟩ := h.number
  rw [Reader.fieldValue, Reader.fieldValue]
  rcases hnumber : r.number with ⟨_ | n, q⟩ <;> rcases hnumber' : r'.number with ⟨_ | n', q'⟩ <;>
    rw [hnumber, hnumber'] at hsame hlevel hlike
  · refine ⟨hlevel, ?_⟩
    rintro (hok | h)
    · simp [number_none hnumber] at hok
    · exact hlike h
  · cases hsame
  · cases hsame
  · cases hsame
    cases kind with
    | varint =>
      have hfound : Level { q with value := n, kind := some .varint }
          { q' with value := n, kind := some .varint } :=
        ⟨hlevel.input_eq, hlevel.pos_eq, hlevel.stop_eq, hlevel.failed_eq⟩
      refine ⟨hfound, fun _ => ⟨hfound, rfl, fun _ => rfl, ?_⟩⟩
      rintro ⟨⟩
    | lengthDelimited =>
      have hleft : q'.stop - q'.pos = q.stop - q.pos := by rw [hlevel.stop_eq, hlevel.pos_eq]
      by_cases hlong : q.stop - q.pos < n
      · simp only [hleft, if_pos hlong]
        refine ⟨hlevel.fail, ?_⟩
        rintro (hok | h)
        · cases hok
        · exact (hlike h).fail
      · simp only [hleft, if_neg hlong]
        have hfound : Level
            { q with value := n, start := q.pos, pos := q.pos + n, kind := some .lengthDelimited }
            { q' with
              value := n, start := q'.pos, pos := q'.pos + n, kind := some .lengthDelimited } :=
          ⟨hlevel.input_eq, congrArg (· + n) hlevel.pos_eq, hlevel.stop_eq, hlevel.failed_eq⟩
        exact ⟨hfound, fun _ => ⟨hfound, rfl, fun _ => rfl, fun _ => hlevel.pos_eq⟩⟩

/-- Advancing depends on nothing but the place that is reached. -/
theorem Level.next (h : Level r r') :
    r'.next.1 = r.next.1 ∧ Level r.next.2 r'.next.2 ∧
      (r.next.1 ≠ none ∨ Alike r r' → Alike r.next.2 r'.next.2) := by
  obtain ⟨hsame, hlevel, hlike⟩ := h.number
  rw [Reader.next, Reader.next, h.failed_eq, h.stop_eq, h.pos_eq]
  split
  · exact ⟨rfl, h, fun hor => hor.resolve_left (absurd rfl)⟩
  rcases hnumber : r.number with ⟨_ | header, q⟩ <;>
    rcases hnumber' : r'.number with ⟨_ | header', q'⟩ <;>
    rw [hnumber, hnumber'] at hsame hlevel hlike
  · exact ⟨rfl, hlevel, fun hor => hlike (hor.resolve_left (absurd rfl))⟩
  · cases hsame
  · cases hsame
  · cases hsame
    simp only []
    split
    · exact ⟨rfl, hlevel.fail, fun hor => (hlike (hor.resolve_left (absurd rfl))).fail⟩
    · split
      · exact ⟨rfl, hlevel.fail, fun hor => (hlike (hor.resolve_left (absurd rfl))).fail⟩
      · rename_i kind _
        obtain ⟨hvalue, hvaluelike⟩ := hlevel.fieldValue kind
        refine ⟨by rw [hvalue.failed_eq], hvalue, ?_⟩
        rintro (hfound | h)
        · exact hvaluelike (Or.inl (by simpa using hfound))
        · exact hvaluelike (Or.inr (hlike h))

/-- Both give the same and are alike behind it. -/
def Agree {α : Type} (p p' : α × Reader) : Prop := p'.1 = p.1 ∧ Alike p.2 p'.2

theorem Agree.map {α β : Type} {p p' : α × Reader} (h : Agree p p') (f : α → β) :
    Agree (p.map f id) (p'.map f id) := ⟨congrArg f h.1, h.2⟩

theorem Alike.readNumber (h : Alike r r') : Agree r.readNumber r'.readNumber := by
  rw [Reader.readNumber, Reader.readNumber, h.failed_eq, h.kind_eq]
  split
  · exact ⟨rfl, h⟩
  · split
    · rename_i hkind
      have hvalue := h.value_eq (by simp [hkind])
      exact ⟨congrArg some hvalue, h⟩
    · exact ⟨rfl, h.fail⟩

theorem Alike.readShortNumber (h : Alike r r') :
    Agree r.readShortNumber r'.readShortNumber := by
  obtain ⟨hsame, hlike⟩ := h.readNumber
  rw [Reader.readShortNumber, Reader.readShortNumber]
  rcases hread : r.readNumber with ⟨n, q⟩
  rcases hread' : r'.readNumber with ⟨n', q'⟩
  rw [hread, hread'] at hsame hlike
  obtain rfl : n' = n := hsame
  cases n' with
  | none => exact ⟨rfl, hlike⟩
  | some n =>
    by_cases hshort : n < UInt32.size
    · simp only [if_pos hshort]
      exact ⟨rfl, hlike⟩
    · simp only [if_neg hshort]
      exact ⟨rfl, hlike.fail⟩

theorem Alike.readBytes (h : Alike r r') : Agree r.readBytes r'.readBytes := by
  rw [Reader.readBytes, Reader.readBytes, h.failed_eq, h.kind_eq]
  split
  · exact ⟨rfl, h⟩
  · split
    · rename_i hkind
      rw [h.input_eq, h.start_eq hkind, h.value_eq (by simp [hkind])]
      exact ⟨rfl, h⟩
    · exact ⟨rfl, h.fail⟩

theorem Alike.readString (h : Alike r r') : Agree r.readString r'.readString := by
  obtain ⟨hsame, hlike⟩ := h.readBytes
  rw [Reader.readString, Reader.readString]
  simp only [hsame]
  split
  · exact ⟨rfl, hlike⟩
  · exact ⟨rfl, hlike.fail⟩

theorem Alike.readValue (h : Alike r r') (form : ValueForm) :
    Agree (r.readValue form) (r'.readValue form) := by
  cases form with
  | bool => exact (h.readNumber.map _).map _
  | uint32 => exact (h.readShortNumber.map _).map _
  | uint64 => exact h.readNumber.map fun n => Value.uint64 (UInt64.ofNat (n.getD 0))
  | int32 => exact h.readShortNumber.map fun n => Value.int32 (Int32.ofInt (Varint.unzigzag n))
  | int64 => exact h.readNumber.map fun n => Value.int64 (Int64.ofInt (Varint.unzigzag (n.getD 0)))
  | bytes => exact h.readBytes.map _
  | string => exact h.readString.map _

theorem Alike.startEmbedded (h : Alike r r') : Agree r.startEmbedded r'.startEmbedded := by
  rw [Reader.startEmbedded, Reader.startEmbedded, h.failed_eq, h.kind_eq]
  split
  · exact ⟨rfl, h⟩
  · split
    · rename_i hkind
      refine ⟨congrArg Boundary.mk h.stop_eq, ⟨h.input_eq, h.start_eq hkind, h.pos_eq, rfl⟩, rfl,
        ?_, ?_⟩
      · exact absurd rfl
      · rintro ⟨⟩
    · exact ⟨rfl, h.fail⟩

/-- Behind an embedded message there is no present field yet. -/
theorem Level.endEmbedded (h : Level r r') (outer : Boundary) :
    Level (r.endEmbedded outer) (r'.endEmbedded outer) ∧
      ((r.endEmbedded outer).failed = false ∨ Alike r r' →
        Alike (r.endEmbedded outer) (r'.endEmbedded outer)) := by
  rw [Reader.endEmbedded, Reader.endEmbedded, h.failed_eq, h.stop_eq]
  split
  · rename_i hfailed
    refine ⟨h, fun hor => hor.resolve_left ?_⟩
    simp [hfailed]
  · split
    · exact ⟨h.fail, fun hor => (hor.resolve_left (by simp [Reader.fail])).fail⟩
    · have hlevel : Level { r with pos := r.stop, stop := outer.pos, kind := none }
          { r' with pos := r.stop, stop := outer.pos, kind := none, failed := r.failed } :=
        ⟨h.input_eq, rfl, rfl, rfl⟩
      refine ⟨hlevel, fun _ => ⟨hlevel, rfl, absurd rfl, ?_⟩⟩
      rintro ⟨⟩

/-- From alike readers a call gives the same, and they stay alike. -/
theorem Alike.perform (h : Alike r r') (call : Call) :
    Agree (r.perform call) (r'.perform call) := by
  cases call with
  | next =>
    obtain ⟨hsame, -, hlike⟩ := h.toLevel.next
    exact ⟨congrArg Answer.tag hsame, hlike (Or.inr h)⟩
  | read form => exact (h.readValue form).map _
  | kind => exact ⟨congrArg Answer.kind h.kind_eq, h⟩
  | finish =>
    refine ⟨congrArg Answer.finished ?_, h⟩
    rw [Reader.finish, Reader.finish, h.failed_eq]
  | startEmbedded => exact h.startEmbedded.map _
  | endEmbedded outer => exact ⟨rfl, (h.toLevel.endEmbedded outer).2 (Or.inr h)⟩

theorem Alike.answers (h : Alike r r') (calls : List Call) :
    r'.answers calls = r.answers calls := by
  induction calls generalizing r r' with
  | nil => rfl
  | cons call calls ih =>
    obtain ⟨hsame, hlike⟩ := h.perform call
    rw [Reader.answers, Reader.answers, hsame]
    exact congrArg _ (ih hlike)

end Alike

/-! ## Failure stays -/

section Failure

variable {r : Reader}

theorem readNumber_snd (r : Reader) : r.readNumber.2 = r ∨ r.readNumber.2 = r.fail := by
  unfold readNumber
  split
  · exact Or.inl rfl
  · split
    · exact Or.inl rfl
    · exact Or.inr rfl

theorem readShortNumber_snd (r : Reader) :
    r.readShortNumber.2 = r ∨ r.readShortNumber.2 = r.fail := by
  have hread := readNumber_snd r
  unfold readShortNumber
  rcases hn : r.readNumber with ⟨_ | n, q⟩
  · rw [hn] at hread
    exact hread
  · rw [hn] at hread
    by_cases hshort : n < UInt32.size
    · simp only [if_pos hshort]
      exact hread
    · simp only [if_neg hshort]
      rcases hread with rfl | rfl
      · exact Or.inr rfl
      · exact Or.inr rfl

theorem readBytes_snd (r : Reader) : r.readBytes.2 = r ∨ r.readBytes.2 = r.fail := by
  unfold readBytes
  split
  · exact Or.inl rfl
  · split
    · exact Or.inl rfl
    · exact Or.inr rfl

theorem readString_snd (r : Reader) : r.readString.2 = r ∨ r.readString.2 = r.fail := by
  have hread := readBytes_snd r
  unfold readString
  simp only []
  split
  · exact hread
  · right
    rcases hread with h | h
    · rw [h]
    · rw [h]
      rfl

/-- Reading a value moves nothing; at most it fails. -/
theorem readValue_snd (r : Reader) (form : ValueForm) :
    (r.readValue form).2 = r ∨ (r.readValue form).2 = r.fail := by
  cases form with
  | bool => exact readNumber_snd r
  | uint32 => exact readShortNumber_snd r
  | uint64 => exact readNumber_snd r
  | int32 => exact readShortNumber_snd r
  | int64 => exact readNumber_snd r
  | bytes => exact readBytes_snd r
  | string => exact readString_snd r

theorem after_failed (h : r.failed = true) (call : Call) : (r.after call).failed = true := by
  cases call with
  | next =>
    show r.next.2.failed = true
    rw [next, h, Bool.true_or, if_pos rfl]
    exact h
  | read form =>
    show (r.readValue form).2.failed = true
    rcases readValue_snd r form with hread | hread
    · rw [hread, h]
    · rw [hread]
      rfl
  | kind => exact h
  | finish => exact h
  | startEmbedded =>
    show r.startEmbedded.2.failed = true
    rw [startEmbedded, if_pos h]
    exact h
  | endEmbedded outer =>
    show (r.endEmbedded outer).failed = true
    rw [endEmbedded, if_pos h]
    exact h

theorem afterAll_failed (h : r.failed = true) (calls : List Call) :
    (r.afterAll calls).failed = true := by
  induction calls generalizing r with
  | nil => exact h
  | cons call calls ih => exact ih (after_failed h call)

/-- What has not failed in the end had not failed before. -/
theorem ok_before {calls : List Call} (h : (r.afterAll calls).failed = false) :
    r.failed = false := by
  by_contra hfailed
  rw [Bool.not_eq_false] at hfailed
  rw [afterAll_failed hfailed] at h
  cases h

theorem ok_after (call : Call) (h : (r.after call).failed = false) : r.failed = false := by
  have hafter : (r.afterAll [call]).failed = false := h
  exact ok_before hafter

end Failure

end Reader

end NoiseChannel
