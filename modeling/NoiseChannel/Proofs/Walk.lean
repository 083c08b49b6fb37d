import NoiseChannel.Proofs.Grammar
import NoiseChannel.Wire.Reader

/-!
# Walking a message

What a reader finds when it advances from field to field. If a field stands at the front of what it
faces, it finds that field and gets past it, whatever follows (`next_frame`), and it finds nothing
else (`next_cases`). So a walk visits the fields of the message in order, up to its end or to the first
place where no field stands (`walk_splits`).
-/

namespace NoiseChannel

namespace Reader

/-! ## What a reader faces -/

/-- Nothing has failed, and `ahead` is what is left of the message. -/
structure Faces (r : Reader) (ahead : Bytes) : Prop where
  failed_eq : r.failed = false
  stop_le : r.stop ≤ r.input.length
  pos_le : r.pos ≤ r.stop
  ahead_eq : (r.input.drop r.pos).take (r.stop - r.pos) = ahead

/-- The reader has got `n` bytes further within the same message. -/
structure Past (r : Reader) (n : Nat) (r' : Reader) : Prop where
  failed_eq : r'.failed = false
  input_eq : r'.input = r.input
  stop_eq : r'.stop = r.stop
  pos_eq : r'.pos = r.pos + n

/-- The present field holds what stands on the wire. -/
structure Holds (r : Reader) (c : Content) : Prop where
  kind_eq : r.kind = some c.kind
  number_eq : ∀ n, c = .number n → r.value = n
  bytes_eq : ∀ bs, c = .bytes bs → r.start + r.value = r.pos ∧
    (r.input.drop r.start).take r.value = bs

def skip (r : Reader) (n : Nat) : Reader := { r with pos := r.pos + n }

section Faces

variable {r r' r'' : Reader} {a rest : Bytes}

theorem faces_new (b : Bytes) : (new b).Faces b :=
  ⟨rfl, Nat.le_refl _, Nat.zero_le _, List.take_length⟩

theorem Faces.length_eq (h : r.Faces rest) : rest.length = r.stop - r.pos := by
  rw [← h.ahead_eq, List.length_take, List.length_drop]
  have hstop := h.stop_le
  omega

/-- Behind the bytes that it has got past, a reader faces the rest. -/
theorem Faces.past (h : r.Faces (a ++ rest)) (hpast : r.Past a.length r') : r'.Faces rest := by
  have hlen := h.length_eq
  rw [List.length_append] at hlen
  have hpos := h.pos_le
  refine ⟨hpast.failed_eq, ?_, ?_, ?_⟩
  · rw [hpast.stop_eq, hpast.input_eq]
    exact h.stop_le
  · rw [hpast.stop_eq, hpast.pos_eq]
    omega
  · have hrest := congrArg (List.drop a.length) h.ahead_eq
    rw [List.drop_left, List.drop_take, List.drop_drop] at hrest
    rw [hpast.input_eq, hpast.stop_eq, hpast.pos_eq, Nat.sub_add_eq]
    exact hrest

theorem Faces.length_le (h : r.Faces rest) : rest.length ≤ r.input.length := by
  rw [h.length_eq]
  exact Nat.le_trans (Nat.sub_le _ _) h.stop_le

theorem Past.trans {n m : Nat} (h : r.Past n r') (h' : r'.Past m r'') : r.Past (n + m) r'' := by
  refine ⟨h'.failed_eq, h'.input_eq.trans h.input_eq, h'.stop_eq.trans h.stop_eq, ?_⟩
  rw [h'.pos_eq, h.pos_eq, Nat.add_assoc]

theorem Faces.skip (h : r.Faces (a ++ rest)) : r.Past a.length (r.skip a.length) :=
  ⟨h.failed_eq, rfl, rfl, rfl⟩

end Faces

/-! ## Numbers -/

section Number

variable {r r' : Reader} {a rest ahead : Bytes} {n : Nat}

/-- No more bytes are looked at than a number may have. -/
theorem Faces.window (h : r.Faces ahead) :
    (r.input.drop r.pos).take (min Varint.maxLength (r.stop - r.pos)) =
      ahead.take Varint.maxLength := by
  rw [← List.take_take, h.ahead_eq]

theorem number_spelled (h : r.Faces (a ++ rest)) (ha : Varint.Spelled 0 a) :
    r.number = (some (Varint.value a), r.skip a.length) := by
  have hshort : a.length ≤ Varint.maxLength := by
    have hle := ha.length_le
    omega
  have hscan := Varint.scan_spelled ha (rest.take (Varint.maxLength - a.length))
  rw [number, h.window, List.take_append, List.take_of_length_le hshort, hscan]
  rfl

theorem exists_spelled_of_number (h : r.Faces ahead) (hn : r.number = (some n, r')) :
    ∃ a rest, ahead = a ++ rest ∧ Varint.Spelled 0 a := by
  rcases hscan : Varint.scan 0 (ahead.take Varint.maxLength) with ⟨_ | m, used⟩
  · simp [number, h.window, hscan] at hn
  · obtain ⟨a, rest, hsplit, ha⟩ := Varint.exists_spelled_of_scan (by decide) hscan
    refine ⟨a, rest ++ ahead.drop Varint.maxLength, ?_, ha⟩
    rw [← List.append_assoc, ← hsplit, List.take_append_drop]

theorem number_none (hn : r.number = (none, r')) : r'.failed = true := by
  rw [number] at hn
  split at hn
  · cases hn
  · cases hn
    rfl

end Number

/-! ## Fields -/

section Field

variable {r r' : Reader} {rest ahead : Bytes}

/-- The value is read that stands behind the header. -/
theorem fieldValue_raw {b : Body} (h : r.Faces (b.raw ++ rest)) (hb : b.WellFormed) :
    r.Past b.raw.length (r.fieldValue b.kind) ∧ (r.fieldValue b.kind).Holds b.content := by
  cases b with
  | number spelling =>
    have hnumber := number_spelled h hb
    rw [Body.kind, fieldValue, hnumber]
    refine ⟨⟨h.failed_eq, rfl, rfl, rfl⟩, rfl, ?_, ?_⟩
    · rintro m ⟨⟩
      rfl
    · rintro bs ⟨⟩
  | bytes length contents =>
    obtain ⟨hlength, hvalue⟩ := hb
    rw [Body.raw, List.append_assoc] at h
    have hnumber := number_spelled h hlength
    have hbehind := h.past h.skip
    have hlen := hbehind.length_eq
    rw [List.length_append] at hlen
    have hfits : ¬ (r.skip length.length).stop - (r.skip length.length).pos < contents.length := by
      omega
    rw [Body.kind, fieldValue, hnumber, hvalue]
    simp only [if_neg hfits]
    refine ⟨⟨h.failed_eq, rfl, rfl, ?_⟩, rfl, ?_, ?_⟩
    · rw [Body.raw, List.length_append, ← Nat.add_assoc]
      rfl
    · rintro n ⟨⟩
    · rintro bs ⟨⟩
      refine ⟨rfl, ?_⟩
      have htake := congrArg (List.take contents.length) hbehind.ahead_eq
      rw [List.take_left, List.take_take, Nat.min_eq_left (Nat.not_lt.mp hfits)] at htake
      exact htake

theorem exists_body_of_fieldValue {kind : WireKind} (h : r.Faces ahead)
    (hok : (r.fieldValue kind).failed = false) :
    ∃ (b : Body) (rest : Bytes), ahead = b.raw ++ rest ∧ b.WellFormed ∧ b.kind = kind := by
  rcases hnumber : r.number with ⟨_ | n, r₁⟩
  · rw [fieldValue, hnumber] at hok
    exact absurd (number_none hnumber) (Bool.eq_false_iff.mp hok)
  · obtain ⟨a, behind, rfl, ha⟩ := exists_spelled_of_number h hnumber
    rw [number_spelled h ha] at hnumber
    cases hnumber
    cases kind with
    | varint => exact ⟨.number a, behind, rfl, ha, rfl⟩
    | lengthDelimited =>
      -- as many bytes as the length says are there
      have hlen := (h.past h.skip).length_eq
      have hfits : Varint.value a ≤ behind.length := by
        rw [hlen]
        by_contra hlong
        rw [fieldValue, number_spelled h ha] at hok
        simp only [if_pos (Nat.lt_of_not_le hlong)] at hok
        exact Bool.noConfusion (show true = false from hok)
      refine ⟨.bytes a (behind.take (Varint.value a)), behind.drop (Varint.value a), ?_, ⟨ha, ?_⟩,
        rfl⟩
      · rw [Body.raw, List.append_assoc, List.take_append_drop]
      · rw [List.length_take, Nat.min_eq_left hfits]

theorem next_end (h : r.Faces []) : r.next = (none, r) := by
  have hlen := h.length_eq
  have hends : (r.failed || decide (r.stop ≤ r.pos)) = true := by
    rw [h.failed_eq, Bool.false_or, decide_eq_true_eq]
    exact Nat.le_of_sub_eq_zero hlen.symm
  rw [next, if_pos hends]

theorem Faces.goes (h : r.Faces ahead) (hne : ahead ≠ []) :
    ¬ (r.failed || decide (r.stop ≤ r.pos)) = true := by
  have hlen := h.length_eq
  have hpos := List.length_pos_iff.mpr hne
  rw [h.failed_eq, Bool.false_or, decide_eq_true_eq]
  omega

/-- At the front of a field its tag is found, and the reader gets past the field. -/
theorem next_frame {f : Frame} (h : r.Faces (f.raw ++ rest)) (hf : f.WellFormed) :
    ∃ r', r.next = (some f.tag, r') ∧ r.Past f.raw.length r' ∧ r'.Holds f.body.content := by
  have hne : f.raw ++ rest ≠ [] := fun hnil =>
    Frame.stuck_nil hf ⟨rest, hnil⟩
  have hgoes := h.goes hne
  rw [Frame.raw, List.append_assoc] at h
  have hnumber := number_spelled h hf.header_spelled
  have hkind : WireKind.ofCode? (Varint.value f.header % 8) = some f.body.kind :=
    WireKind.ofCode?_eq_some_iff.mpr hf.header_mod
  obtain ⟨hpast, hholds⟩ := fieldValue_raw (h.past h.skip) hf.body_wellFormed
  refine ⟨_, ?_, ?_, hholds⟩
  · rw [next, if_neg hgoes, hnumber]
    simp only [if_neg (Nat.not_le.mpr hf.header_lt), hkind, hpast.failed_eq]
    rfl
  · rw [Frame.raw, List.length_append]
    exact h.skip.trans hpast

theorem exists_frame_of_next {tag : UInt8} (h : r.Faces ahead) (hnext : r.next = (some tag, r')) :
    ∃ (f : Frame) (rest : Bytes), ahead = f.raw ++ rest ∧ f.WellFormed := by
  rw [next] at hnext
  split at hnext
  · cases hnext
  · rcases hnumber : r.number with ⟨_ | n, r₁⟩
    · rw [hnumber] at hnext
      cases hnext
    · obtain ⟨a, behind, rfl, ha⟩ := exists_spelled_of_number h hnumber
      rw [number_spelled h ha] at hnext
      simp only [] at hnext
      split at hnext
      · cases hnext
      · rename_i hlt
        split at hnext
        · cases hnext
        · rename_i kind hkind
          -- a tag is given only if the value could be read
          have hok : ((r.skip a.length).fieldValue kind).failed = false := by
            by_contra hfailed
            rw [Bool.not_eq_false] at hfailed
            rw [if_pos hfailed] at hnext
            cases hnext
          obtain ⟨b, rest, rfl, hb, rfl⟩ := exists_body_of_fieldValue (h.past h.skip) hok
          refine ⟨⟨a, b⟩, rest, by rw [Frame.raw, List.append_assoc], ha, Nat.lt_of_not_le hlt, ?_, hb⟩
          exact WireKind.ofCode?_eq_some_iff.mp hkind

theorem next_none (h : r.Faces ahead) (hne : ahead ≠ []) (hnext : r.next = (none, r')) :
    r'.failed = true := by
  rw [next, if_neg (h.goes hne)] at hnext
  rcases hnumber : r.number with ⟨_ | n, r₁⟩
  · rw [hnumber] at hnext
    cases hnext
    exact number_none hnumber
  · rw [hnumber] at hnext
    simp only [] at hnext
    split at hnext
    · cases hnext
      rfl
    · split at hnext
      · cases hnext
        rfl
      · split at hnext
        · cases hnext
          assumption
        · cases hnext

/-- The ways in which a reader advances: there is nothing left, a field comes, or no field comes and
that is a failure. -/
theorem next_cases (h : r.Faces ahead) :
    (ahead = [] ∧ r.next = (none, r)) ∨
    (∃ (f : Frame) (rest : Bytes) (r' : Reader), ahead = f.raw ++ rest ∧ f.WellFormed ∧
      r.next = (some f.tag, r') ∧ r.Past f.raw.length r' ∧ r'.Holds f.body.content) ∨
    (ahead ≠ [] ∧ (∀ f : Frame, f.WellFormed → ¬ f.raw <+: ahead) ∧
      ∃ r', r.next = (none, r') ∧ r'.failed = true) := by
  by_cases hne : ahead = []
  · subst hne
    exact Or.inl ⟨rfl, next_end h⟩
  · rcases hnext : r.next with ⟨_ | tag, r'⟩
    · refine Or.inr (Or.inr ⟨hne, ?_, r', rfl, next_none h hne hnext⟩)
      rintro f hf ⟨rest, rfl⟩
      obtain ⟨r₁, hfound, -⟩ := next_frame h hf
      rw [hnext] at hfound
      cases hfound
    · obtain ⟨f, rest, rfl, hf⟩ := exists_frame_of_next h hnext
      obtain ⟨r₁, hfound, hpast, hholds⟩ := next_frame h hf
      rw [hnext] at hfound
      exact Or.inr (Or.inl ⟨f, rest, r₁, rfl, hf, hfound, hpast, hholds⟩)

end Field

/-! ## The present field -/

section Present

variable {r : Reader}

theorem readNumber_eq (hok : r.failed = false) {n : Nat} (h : r.Holds (.number n)) :
    r.readNumber = (some n, r) := by
  have hkind : r.kind = some .varint := h.kind_eq
  rw [readNumber, hok, if_neg (by decide), if_pos hkind, h.number_eq n rfl]

theorem readBytes_eq (hok : r.failed = false) {bs : Bytes} (h : r.Holds (.bytes bs)) :
    r.readBytes = (bs, r) := by
  have hkind : r.kind = some .lengthDelimited := h.kind_eq
  rw [readBytes, hok, if_neg (by decide), if_pos hkind, (h.bytes_eq bs rfl).2]

/-- What the present field gives when it is read as what it is. -/
def content? (r : Reader) : Option Content :=
  match r.kind with
  | some .varint => some (.number r.readUInt64.1.toNat)
  | some .lengthDelimited => some (.bytes r.readBytes.1)
  | none => none

theorem content?_eq {c : Content} (hok : r.failed = false) (h : r.Holds c) (hc : c.Fits) :
    r.content? = some c := by
  rw [content?, h.kind_eq]
  cases c with
  | number n =>
    simp only [Content.kind, readUInt64, readNumber_eq hok h, Option.getD_some]
    rw [UInt64.toNat_ofNat_of_lt' hc]
  | bytes bs => simp only [Content.kind, readBytes_eq hok h]

end Present

/-! ## Walks -/

/-- Advancing as long as a field is found, the reader finds these fields, and then no further one. -/
inductive Walks : Reader → List Item → Reader → Prop
  | done {r r' : Reader} (hnext : r.next = (none, r')) : Walks r [] r'
  | step {r r₁ r' : Reader} {tag : UInt8} {c : Content} {items : List Item}
      (hnext : r.next = (some tag, r₁)) (hc : r₁.content? = some c) (hrest : Walks r₁ items r') :
      Walks r (⟨tag, c⟩ :: items) r'

theorem Walks.unique {r r' r'' : Reader} {items items' : List Item} (h : r.Walks items r')
    (h' : r.Walks items' r'') : items = items' ∧ r' = r'' := by
  induction h generalizing items' with
  | done hnext =>
    cases h' with
    | done hnext' =>
      rw [hnext] at hnext'
      cases hnext'
      exact ⟨rfl, rfl⟩
    | step hnext' =>
      rw [hnext] at hnext'
      cases hnext'
  | step hnext hc _ ih =>
    cases h' with
    | done hnext' =>
      rw [hnext] at hnext'
      cases hnext'
    | step hnext' hc' hrest' =>
      rw [hnext] at hnext'
      cases hnext'
      rw [hc] at hc'
      cases hc'
      obtain ⟨rfl, rfl⟩ := ih hrest'
      exact ⟨rfl, rfl⟩

/-- A walk visits the fields with which the message begins. It fails if something else follows. -/
theorem walk_splits {r : Reader} {ahead : Bytes} (h : r.Faces ahead) :
    ∃ fs rest r', Frame.Splits fs rest ahead ∧ r.Walks (fs.map Frame.item) r' ∧
      (r'.failed = false ↔ rest = []) := by
  -- on the bytes that are left, of which every field takes some
  induction hn : ahead.length using Nat.strongRecOn generalizing r ahead with
  | ind n ih =>
    rcases next_cases h with ⟨rfl, hnext⟩ | ⟨f, rest, r₁, rfl, hf, hnext, hpast, hholds⟩ |
      ⟨hne, hstuck, r₁, hnext, hfailed⟩
    · refine ⟨[], [], r, ⟨by simp, rfl, fun _ => Frame.stuck_nil⟩, .done hnext, ?_⟩
      simp only [h.failed_eq]
    · have hlen := Frame.length_raw hf
      rw [List.length_append] at hn
      obtain ⟨fs, rest', r', hsplits, hwalks, hends⟩ :=
        ih rest.length (by omega) (h.past hpast) rfl
      have hcontent := content?_eq hpast.failed_eq hholds (Body.content_fits hf.body_wellFormed)
      exact ⟨f :: fs, rest', r', Frame.splits_cons.mpr ⟨hf, rest, rfl, hsplits⟩,
        .step hnext hcontent hwalks, hends⟩
    · refine ⟨[], ahead, r₁, ⟨by simp, rfl, hstuck⟩, .done hnext, ?_⟩
      simp only [hfailed, hne, Bool.true_eq_false]

end Reader

/-- A walk finds the fields of a message and nothing else. Any bytes begin with certain fields, in one
way only, and these are what the walk finds, at most one for every two bytes, each with its tag and
its number of 64 bits or its bytes. Nothing has failed in the end if and only if the fields are all of
the message; otherwise no field stands behind the last one that was found. -/
theorem walk_finds_fields (b : Bytes) :
    ∃ fs rest r, Frame.Splits fs rest b ∧
      (∀ fs' rest', Frame.Splits fs' rest' b → fs' = fs ∧ rest' = rest) ∧
      (Reader.new b).Walks (fs.map Frame.item) r ∧
      (∀ items r', (Reader.new b).Walks items r' → items = fs.map Frame.item ∧ r' = r) ∧
      fs.length ≤ b.length / 2 ∧ (∀ f ∈ fs, f.item.content.Fits) ∧
      (r.finish = .ok () ↔ ∃ fs', Frame.Composes fs' b) ∧
      (r.finish = .error .malformed ↔ rest ≠ []) ∧ ∀ fs', Frame.Composes fs' b → fs' = fs := by
  obtain ⟨fs, rest, r, hsplits, hwalks, hends⟩ := Reader.walk_splits (Reader.faces_new b)
  have hcomposes : (∃ fs', Frame.Composes fs' b) ↔ rest = [] := by
    constructor
    · rintro ⟨fs', hfs'⟩
      exact (hsplits.unique hfs'.splits).2
    · rintro rfl
      have hraws := hsplits.raws_eq
      rw [List.append_nil] at hraws
      exact ⟨fs, hsplits.wellFormed, hraws⟩
  refine ⟨fs, rest, r, hsplits, ?_, hwalks, ?_, ?_, ?_, ?_, ?_, ?_⟩
  · intro fs' rest' h'
    exact h'.unique hsplits
  · intro items r' h'
    exact h'.unique hwalks
  · have hlen := hsplits.length_le
    omega
  · intro f hf
    exact Body.content_fits (hsplits.wellFormed f hf).body_wellFormed
  · rw [hcomposes, ← hends, Reader.finish]
    cases r.failed <;> simp
  · rw [ne_eq, ← hends, Reader.finish]
    cases r.failed <;> simp
  · intro fs' h'
    exact (h'.splits.unique hsplits).1

end NoiseChannel
