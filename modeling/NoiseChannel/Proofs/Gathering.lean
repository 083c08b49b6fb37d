import NoiseChannel.Payload.Options
import NoiseChannel.Proofs.RoundTrip

/-!
# What a message says

The payload types are decoded by visiting the fields of a message. What a field says is settled by
its content alone (`Reader.Reads`), and the visits add up to what all the fields say, each list with
every occurrence in order and everything else with its last one (`ClientNegotiation.gathered` and its
like). A visitor that does so field by field does so for the whole message, and it ends in failure
exactly if the bytes are no message or a field does not suit (`Gathers.complete`, `Gathers.sound`);
this holds of the message that the reader stands in, and so of an embedded one too.
-/

namespace NoiseChannel

/-! ## Reading a field -/

namespace Content

def text? : Content → Option String
  | .bytes bs => bs.toString?
  | .number _ => none

def blob? : Content → Option Bytes
  | .bytes bs => some bs
  | .number _ => none

def short? : Content → Option UInt32
  | .number n => if n < 2 ^ 32 then some (UInt32.ofNat n) else none
  | .bytes _ => none

def flag? : Content → Option Bool
  | .number n => some (n ≠ 0)
  | .bytes _ => none

end Content

namespace Reader

/-- A call gives what the present field means and stays behind the field. It fails if the field means
nothing to it. -/
structure Reads {α : Type} (read : Reader → α × Reader) (meaning : Content → Option α) : Prop where
  some_eq : ∀ {r : Reader} {rest : Bytes} {c : Content} {x : α}, r.Faces rest → r.Holds c →
    meaning c = some x → ∃ r', read r = (x, r') ∧ r.Past 0 r'
  none_failed : ∀ {r : Reader} {rest : Bytes} {c : Content}, r.Faces rest → r.Holds c →
    meaning c = none → (read r).2.failed = true

section Reads

variable {r : Reader}

theorem Past.refl (hok : r.failed = false) : r.Past 0 r := ⟨hok, rfl, rfl, rfl⟩

theorem readBytes_number (hok : r.failed = false) {n : Nat} (h : r.Holds (.number n)) :
    r.readBytes = ([], r.fail) := by
  have hkind : r.kind = some .varint := h.kind_eq
  rw [readBytes, hok, if_neg (by decide), hkind, if_neg (by decide)]

theorem readNumber_bytes (hok : r.failed = false) {bs : Bytes} (h : r.Holds (.bytes bs)) :
    r.readNumber = (none, r.fail) := by
  have hkind : r.kind = some .lengthDelimited := h.kind_eq
  rw [readNumber, hok, if_neg (by decide), hkind, if_neg (by decide)]

theorem reads_bytes : Reads readBytes Content.blob? := by
  constructor
  · rintro r rest (n | bs) x h hholds hx
    · cases hx
    · cases hx
      exact ⟨r, readBytes_eq h.failed_eq hholds, .refl h.failed_eq⟩
  · rintro r rest (n | bs) h hholds hnone
    · rw [readBytes_number h.failed_eq hholds]
      rfl
    · cases hnone

theorem reads_string : Reads readString Content.text? := by
  constructor
  · rintro r rest (n | bs) x h hholds hx
    · cases hx
    · rw [Content.text?] at hx
      refine ⟨r, ?_, .refl h.failed_eq⟩
      rw [readString, readBytes_eq h.failed_eq hholds]
      simp only [hx]
  · rintro r rest (n | bs) h hholds hnone
    · rw [readString, readBytes_number h.failed_eq hholds]
      simp only []
      split <;> rfl
    · rw [Content.text?] at hnone
      rw [readString, readBytes_eq h.failed_eq hholds]
      simp only [hnone]
      rfl

theorem reads_bool : Reads readBool Content.flag? := by
  constructor
  · rintro r rest (n | bs) x h hholds hx
    · cases hx
      refine ⟨r, ?_, .refl h.failed_eq⟩
      rw [readBool, readNumber_eq h.failed_eq hholds]
      rfl
    · cases hx
  · rintro r rest (n | bs) h hholds hnone
    · cases hnone
    · rw [readBool, readNumber_bytes h.failed_eq hholds]
      rfl

theorem reads_uint32 : Reads readUInt32 Content.short? := by
  constructor
  · rintro r rest (n | bs) x h hholds hx
    · rw [Content.short?] at hx
      split at hx
      · rename_i hn
        cases hx
        refine ⟨r, ?_, .refl h.failed_eq⟩
        rw [readUInt32, readShortNumber_eq h.failed_eq hholds hn]
      · cases hx
    · cases hx
  · rintro r rest (n | bs) h hholds hnone
    · rw [Content.short?] at hnone
      split at hnone
      · cases hnone
      · rename_i hn
        have hlong : ¬ n < UInt32.size := hn
        rw [readUInt32, readShortNumber, readNumber_eq h.failed_eq hholds]
        simp only [if_neg hlong]
        rfl
    · rw [readUInt32, readShortNumber, readNumber_bytes h.failed_eq hholds]
      rfl

end Reads

/-! ## Visiting a message -/

section Visit

variable {σ : Type} {visit : UInt8 → σ → Reader → σ × Reader} {Admits : Item → Prop}
  {gathered : List Item → σ}

/-- A visitor that has gathered what some fields say adds what the next one says and stays behind it.
It fails if the field is not admitted. -/
structure Gathers (visit : UInt8 → σ → Reader → σ × Reader) (Admits : Item → Prop)
    (gathered : List Item → σ) : Prop where
  admitted : ∀ {r : Reader} {rest : Bytes} {i : Item} (items : List Item), r.Faces rest →
    r.Holds i.content → Admits i →
      ∃ r', visit i.tag (gathered items) r = (gathered (items ++ [i]), r') ∧ r.Past 0 r'
  refused : ∀ {r : Reader} {rest : Bytes} {i : Item} (s : σ), r.Faces rest → r.Holds i.content →
    ¬ Admits i → (visit i.tag s r).2.failed = true

theorem visitUpTo_failed {r : Reader} (h : r.failed = true) (fuel : Nat) (s : σ) :
    visitUpTo visit fuel s r = (s, r) := by
  cases fuel with
  | zero => rfl
  | succ fuel =>
    have hnext : r.next = (none, r) := by
      rw [next, h]
      rfl
    rw [visitUpTo, hnext]

/-- A message with fields that are all admitted is gathered. -/
theorem Gathers.complete (hv : Gathers visit Admits gathered) (items : List Item)
    {fs : List Frame} {fuel : Nat} {r : Reader} {ahead : Bytes} (h : r.Faces ahead)
    (hfs : Frame.Composes fs ahead) (hadmits : ∀ f ∈ fs, Admits f.item)
    (hfuel : fs.length < fuel) :
    ∃ r', visitUpTo visit fuel (gathered items) r = (gathered (items ++ fs.map Frame.item), r') ∧
      r.Past ahead.length r' := by
  induction fs generalizing items fuel r ahead with
  | nil =>
    cases hfs.raws_eq
    obtain ⟨fuel, rfl⟩ := Nat.exists_eq_succ_of_ne_zero (Nat.ne_of_gt hfuel)
    refine ⟨r, ?_, .refl h.failed_eq⟩
    rw [visitUpTo, next_end h]
    simp only [List.map_nil, List.append_nil]
  | cons f fs ih =>
    obtain ⟨fuel, rfl⟩ := Nat.exists_eq_succ_of_ne_zero (Nat.ne_of_gt (Nat.zero_lt_of_lt hfuel))
    obtain ⟨hf, behind, rfl, hbehind⟩ := Frame.composes_cons.mp hfs
    obtain ⟨hfirst, hothers⟩ := List.forall_mem_cons.mp hadmits
    obtain ⟨r₁, hnext, hpast, hholds⟩ := next_frame h hf
    have hpresent := h.past hpast
    obtain ⟨r₂, hvisit, hstays⟩ := hv.admitted (i := f.item) items hpresent hholds hfirst
    have hvisit' : visit f.tag (gathered items) r₁ = (gathered (items ++ [f.item]), r₂) := hvisit
    obtain ⟨r₃, hrun, hthrough⟩ := ih (items ++ [f.item]) (hpresent.past (a := []) hstays) hbehind
      hothers (Nat.lt_of_succ_lt_succ hfuel)
    refine ⟨r₃, ?_, ?_⟩
    · rw [visitUpTo, hnext]
      simp only [hvisit', hrun, List.map_cons, List.append_assoc, List.singleton_append]
    · rw [List.length_append]
      exact hpast.trans (by simpa using hstays.trans hthrough)

/-- What has been visited without a failure is a message with fields that are all admitted. -/
theorem Gathers.sound (hv : Gathers visit Admits gathered) (items : List Item) {fuel : Nat}
    {r : Reader} {ahead : Bytes} (h : r.Faces ahead) (hfuel : ahead.length < fuel)
    (hok : (visitUpTo visit fuel (gathered items) r).2.failed = false) :
    ∃ fs, Frame.Composes fs ahead ∧ ∀ f ∈ fs, Admits f.item := by
  induction fuel generalizing items r ahead with
  | zero => exact absurd hfuel (Nat.not_lt_zero _)
  | succ fuel ih =>
    rw [visitUpTo] at hok
    rcases next_cases h with ⟨rfl, -⟩ | ⟨f, rest, r₁, rfl, hf, hnext, hpast, hholds⟩ |
      ⟨-, -, r₁, hnext, hfailed⟩
    · exact ⟨[], Frame.composes_nil, by simp⟩
    · have hbehind := h.past hpast
      simp only [hnext] at hok
      by_cases hadmits : Admits f.item
      · obtain ⟨r₂, hvisit, hstays⟩ := hv.admitted (i := f.item) items hbehind hholds hadmits
        have hvisit' : visit f.tag (gathered items) r₁ = (gathered (items ++ [f.item]), r₂) := hvisit
        simp only [hvisit'] at hok
        have hlen := Frame.length_raw hf
        rw [List.length_append] at hfuel
        obtain ⟨fs, hfs, hall⟩ :=
          ih (items ++ [f.item]) (hbehind.past (a := []) hstays) (by omega) hok
        exact ⟨f :: fs, Frame.composes_cons.mpr ⟨hf, rest, rfl, hfs⟩,
          List.forall_mem_cons.mpr ⟨hadmits, hall⟩⟩
      · -- the failure stays, against what is known of the end
        have hfailed : (visit f.tag (gathered items) r₁).2.failed = true :=
          hv.refused (i := f.item) _ hbehind hholds hadmits
        rw [visitUpTo_failed hfailed, hfailed] at hok
        cases hok
    · simp only [hnext, hfailed] at hok
      cases hok

/-- Visiting all of a message gathers it if it is one and every field is admitted, and fails if not. -/
theorem Gathers.visitAll (hv : Gathers visit Admits gathered) {r : Reader} {ahead : Bytes}
    (h : r.Faces ahead) :
    (∃ fs r', Frame.Composes fs ahead ∧ (∀ f ∈ fs, Admits f.item) ∧
      r.visitAll visit (gathered []) = (gathered (fs.map Frame.item), r') ∧
      r.Past ahead.length r') ∨
    (¬ ∃ fs, Frame.Composes fs ahead ∧ ∀ f ∈ fs, Admits f.item) ∧
      (r.visitAll visit (gathered [])).2.failed = true := by
  have hfuel : ahead.length < r.stop - r.pos + 1 := by
    rw [← h.length_eq]
    exact Nat.lt_succ_self _
  by_cases hfs : ∃ fs, Frame.Composes fs ahead ∧ ∀ f ∈ fs, Admits f.item
  · obtain ⟨fs, hcomposes, hadmits⟩ := hfs
    have hlen := hcomposes.splits.length_le
    obtain ⟨r', hvisit, hpast⟩ := hv.complete [] h hcomposes hadmits
      (Nat.lt_of_le_of_lt (Nat.le_trans (Nat.le_mul_of_pos_left _ Nat.two_pos) hlen) hfuel)
    exact Or.inl ⟨fs, r', hcomposes, hadmits, hvisit, hpast⟩
  · refine Or.inr ⟨hfs, ?_⟩
    by_contra hok
    rw [Bool.not_eq_true] at hok
    exact hfs (hv.sound [] h hfuel hok)

end Visit

end Reader

/-! ## Payload types -/

/-- What the fields with a given tag say, in order. -/
def occurrences {α : Type} (meaning : Content → Option α) (tag : UInt8) (items : List Item) :
    List α :=
  items.filterMap fun i => if i.tag = tag then meaning i.content else none

/-- A field that a payload type knows: the call that reads it, what its content means, and where that
goes. -/
structure Slot (σ : Type) where
  α : Type
  read : Reader → α × Reader
  meaning : Content → Option α
  reads : Reader.Reads read meaning
  put : σ → α → σ

namespace Slot

variable {σ : Type}

def text (put : σ → String → σ) : Slot σ :=
  ⟨String, Reader.readString, Content.text?, Reader.reads_string, put⟩

def blob (put : σ → Bytes → σ) : Slot σ :=
  ⟨Bytes, Reader.readBytes, Content.blob?, Reader.reads_bytes, put⟩

def short (put : σ → UInt32 → σ) : Slot σ :=
  ⟨UInt32, Reader.readUInt32, Content.short?, Reader.reads_uint32, put⟩

def flag (put : σ → Bool → σ) : Slot σ :=
  ⟨Bool, Reader.readBool, Content.flag?, Reader.reads_bool, put⟩

def visit (slot : Slot σ) (s : σ) (r : Reader) : σ × Reader :=
  let (x, r) := slot.read r
  (slot.put s x, r)

end Slot

/-- A field suits if its tag is unknown or its content means something there. -/
def Item.Suits {σ τ : Type} (value : τ → UInt8) (slot : τ → Slot σ) (i : Item) : Prop :=
  ∀ t, i.tag = value t → ((slot t).meaning i.content).isSome

/-- A visitor that reads the known fields into their slots and passes over unknown ones gathers what
the slots add up to. -/
theorem Reader.gathers_slots {σ τ : Type} {value : τ → UInt8} {slot : τ → Slot σ}
    {visit : UInt8 → σ → Reader → σ × Reader} {gathered : List Item → σ}
    (known : ∀ t s r, visit (value t) s r = (slot t).visit s r)
    (unknown : ∀ tag s r, (∀ t, tag ≠ value t) → visit tag s r = (s, r))
    (put : ∀ t items c x, (slot t).meaning c = some x →
      gathered (items ++ [⟨value t, c⟩]) = (slot t).put (gathered items) x)
    (pass : ∀ i items, (∀ t, i.tag ≠ value t) → gathered (items ++ [i]) = gathered items) :
    Gathers visit (Item.Suits value slot) gathered := by
  constructor
  · intro r rest i items h hholds hsuits
    by_cases hknown : ∃ t, i.tag = value t
    · obtain ⟨t, ht⟩ := hknown
      rcases i with ⟨tag, c⟩
      obtain rfl : tag = value t := ht
      obtain ⟨x, hx⟩ := Option.isSome_iff_exists.mp (hsuits t rfl)
      obtain ⟨r', hread, hpast⟩ := (slot t).reads.some_eq h hholds hx
      refine ⟨r', ?_, hpast⟩
      rw [known, put t items c x hx, Slot.visit, hread]
    · rw [not_exists] at hknown
      refine ⟨r, ?_, .refl h.failed_eq⟩
      rw [unknown _ _ _ hknown, pass _ _ hknown]
  · intro r rest i s h hholds hsuits
    obtain ⟨t, ht⟩ := not_forall.mp hsuits
    obtain ⟨htag, hnone⟩ := Classical.not_imp.mp ht
    rw [Bool.not_eq_true, Option.isSome_eq_false_iff, Option.isNone_iff_eq_none] at hnone
    rw [htag, known]
    exact (slot t).reads.none_failed h hholds hnone

end NoiseChannel
