import NoiseChannel.Proofs.Encoding

/-!
# The grammar of messages

A message is a row of fields. A field is a header, which joins a tag to a kind, and behind it a number
or a length with as many bytes; headers, numbers and lengths may be spelled longer than they need to
be. No field is the beginning of another one (`Frame.append_inj`), so that bytes can be cut into
fields in one way only (`Frame.Splits.unique`), also where something malformed follows.
-/

namespace NoiseChannel

namespace WireKind

variable (kind : WireKind) (tag : UInt8)

theorem header_lt : kind.header tag < 2048 := by
  have htag := tag.toNat_lt
  unfold header
  cases kind <;> simp only [code] <;> omega

theorem header_mod : kind.header tag % 8 = kind.code := by
  unfold header
  cases kind <;> simp only [code] <;> omega

theorem header_div : UInt8.ofNat (kind.header tag / 8) = tag := by
  have htag : kind.header tag / 8 = tag.toNat := by
    unfold header
    cases kind <;> simp only [code] <;> omega
  rw [htag, UInt8.ofNat_toNat]

variable {kind}

theorem ofCode?_eq_some_iff {n : Nat} : ofCode? n = some kind ↔ n = kind.code := by
  constructor
  · intro h
    unfold ofCode? at h
    split at h <;> cases h <;> rfl
  · rintro rfl
    cases kind <;> rfl

theorem code_inj {kind' : WireKind} (h : kind.code = kind'.code) : kind = kind' := by
  have hsome : ofCode? kind.code = some kind := ofCode?_eq_some_iff.mpr rfl
  rw [h, ofCode?_eq_some_iff.mpr rfl] at hsome
  exact (Option.some.inj hsome).symm

end WireKind

/-! ## Fields -/

/-- The parts of a field behind its header. -/
inductive Body where
  | number (spelling : Bytes)
  | bytes (length contents : Bytes)

namespace Body

def kind : Body → WireKind
  | .number _ => .varint
  | .bytes _ _ => .lengthDelimited

def raw : Body → Bytes
  | .number spelling => spelling
  | .bytes length contents => length ++ contents

def WellFormed : Body → Prop
  | .number spelling => Varint.Spelled 0 spelling
  | .bytes length contents => Varint.Spelled 0 length ∧ Varint.value length = contents.length

def content : Body → Content
  | .number spelling => .number (Varint.value spelling)
  | .bytes _ contents => .bytes contents

variable {b b' : Body} {x x' : Bytes}

theorem length_raw_pos (h : b.WellFormed) : 0 < b.raw.length := by
  cases b with
  | number spelling => exact h.length_pos
  | bytes length contents =>
    rw [raw, List.length_append]
    exact Nat.add_pos_left h.1.length_pos _

theorem append_inj (h : b.WellFormed) (h' : b'.WellFormed) (hkind : b.kind = b'.kind)
    (heq : b.raw ++ x = b'.raw ++ x') : b = b' ∧ x = x' := by
  cases b with
  | number spelling =>
    cases b' with
    | number spelling' =>
      obtain ⟨rfl, hx⟩ := Varint.Spelled.append_inj h h' heq
      exact ⟨rfl, hx⟩
    | bytes length' contents' => cases hkind
  | bytes length contents =>
    cases b' with
    | number spelling' => cases hkind
    | bytes length' contents' =>
      rw [raw, raw, List.append_assoc, List.append_assoc] at heq
      obtain ⟨rfl, hrest⟩ := Varint.Spelled.append_inj h.1 h'.1 heq
      obtain ⟨rfl, hx⟩ := List.append_inj hrest (h.2.symm.trans h'.2)
      exact ⟨rfl, hx⟩

end Body

/-- What a field says: its tag and what stands behind its header. -/
structure Item where
  tag : UInt8
  content : Content

/-- A field cut into its parts. -/
structure Frame where
  header : Bytes
  body : Body

namespace Frame

def raw (f : Frame) : Bytes := f.header ++ f.body.raw

def tag (f : Frame) : UInt8 := UInt8.ofNat (Varint.value f.header / 8)

def item (f : Frame) : Item := ⟨f.tag, f.body.content⟩

/-- The parts make up a field. -/
structure WellFormed (f : Frame) : Prop where
  header_spelled : Varint.Spelled 0 f.header
  header_lt : Varint.value f.header < 2048
  header_mod : Varint.value f.header % 8 = f.body.kind.code
  body_wellFormed : f.body.WellFormed

variable {f f' : Frame} {x x' : Bytes}

theorem length_raw (h : f.WellFormed) : 2 ≤ f.raw.length := by
  rw [raw, List.length_append]
  exact Nat.add_le_add h.header_spelled.length_pos (Body.length_raw_pos h.body_wellFormed)

/-- No field is the beginning of another one. -/
theorem append_inj (h : f.WellFormed) (h' : f'.WellFormed) (heq : f.raw ++ x = f'.raw ++ x') :
    f = f' ∧ x = x' := by
  rcases f with ⟨header, body⟩
  rcases f' with ⟨header', body'⟩
  rw [raw, raw, List.append_assoc, List.append_assoc] at heq
  obtain ⟨rfl, hbehind⟩ := h.header_spelled.append_inj h'.header_spelled heq
  have hkind : body.kind = body'.kind := WireKind.code_inj (h.header_mod.symm.trans h'.header_mod)
  obtain ⟨rfl, hx⟩ := Body.append_inj h.body_wellFormed h'.body_wellFormed hkind hbehind
  exact ⟨rfl, hx⟩

/-! ## Messages -/

def raws (fs : List Frame) : Bytes := fs.flatMap raw

/-- The bytes are these fields, one after the other. -/
structure Composes (fs : List Frame) (b : Bytes) : Prop where
  wellFormed : ∀ f ∈ fs, f.WellFormed
  raws_eq : raws fs = b

/-- The bytes begin with these fields, and then comes no other one. -/
structure Splits (fs : List Frame) (rest b : Bytes) : Prop where
  wellFormed : ∀ f ∈ fs, f.WellFormed
  raws_eq : raws fs ++ rest = b
  stuck : ∀ f : Frame, f.WellFormed → ¬ f.raw <+: rest

section Messages

variable {fs fs' : List Frame} {rest rest' b : Bytes}

theorem raws_cons : raws (f :: fs) = f.raw ++ raws fs := List.flatMap_cons

theorem stuck_nil (h : f.WellFormed) : ¬ f.raw <+: [] := by
  intro hprefix
  have hnil := List.prefix_nil.mp hprefix
  have hlen := length_raw h
  rw [hnil] at hlen
  exact absurd hlen (by decide)

theorem composes_nil : Composes [] [] := ⟨by simp, rfl⟩

theorem composes_cons :
    Composes (f :: fs) b ↔ f.WellFormed ∧ ∃ b', b = f.raw ++ b' ∧ Composes fs b' := by
  constructor
  · rintro ⟨hfs, rfl⟩
    obtain ⟨hf, hrest⟩ := List.forall_mem_cons.mp hfs
    exact ⟨hf, raws fs, raws_cons, hrest, rfl⟩
  · rintro ⟨hf, b', rfl, hfs, rfl⟩
    exact ⟨List.forall_mem_cons.mpr ⟨hf, hfs⟩, raws_cons⟩

theorem Composes.splits (h : Composes fs b) : Splits fs [] b :=
  ⟨h.wellFormed, by rw [List.append_nil, h.raws_eq], fun _ => stuck_nil⟩

theorem splits_cons :
    Splits (f :: fs) rest b ↔ f.WellFormed ∧ ∃ b', b = f.raw ++ b' ∧ Splits fs rest b' := by
  constructor
  · rintro ⟨hfs, rfl, hstuck⟩
    obtain ⟨hf, hrest⟩ := List.forall_mem_cons.mp hfs
    refine ⟨hf, raws fs ++ rest, ?_, hrest, rfl, hstuck⟩
    rw [raws_cons, List.append_assoc]
  · rintro ⟨hf, b', rfl, hfs, rfl, hstuck⟩
    refine ⟨List.forall_mem_cons.mpr ⟨hf, hfs⟩, ?_, hstuck⟩
    rw [raws_cons, List.append_assoc]

/-- Bytes are cut into fields in one way only. -/
theorem Splits.unique (h : Splits fs rest b) (h' : Splits fs' rest' b) :
    fs = fs' ∧ rest = rest' := by
  induction fs generalizing fs' b with
  | nil =>
    obtain rfl : rest = b := h.raws_eq
    cases fs' with
    | nil => exact ⟨rfl, h'.raws_eq.symm⟩
    | cons f' fs' =>
      obtain ⟨hf', b', rfl, -⟩ := splits_cons.mp h'
      exact absurd (List.prefix_append _ _) (h.stuck f' hf')
  | cons f fs ih =>
    obtain ⟨hf, b₁, rfl, hs⟩ := splits_cons.mp h
    cases fs' with
    | nil =>
      obtain rfl : rest' = f.raw ++ b₁ := h'.raws_eq
      exact absurd (List.prefix_append _ _) (h'.stuck f hf)
    | cons f' fs' =>
      obtain ⟨hf', b₂, heq, hs'⟩ := splits_cons.mp h'
      obtain ⟨rfl, rfl⟩ := append_inj hf hf' heq
      obtain ⟨rfl, hrest⟩ := ih hs hs'
      exact ⟨rfl, hrest⟩

theorem Splits.length_le (h : Splits fs rest b) : 2 * fs.length ≤ b.length := by
  induction fs generalizing b with
  | nil => exact Nat.zero_le _
  | cons f fs ih =>
    obtain ⟨hf, b', rfl, hs⟩ := splits_cons.mp h
    have hfield := length_raw hf
    have hrest := ih hs
    rw [List.length_append, List.length_cons]
    omega

end Messages

end Frame

/-! ## Fields as they are written -/

/-- What stands on the wire fits into 64 bits, be it a number or a length. -/
def Content.Fits : Content → Prop
  | .number n => n < 2 ^ 64
  | .bytes bs => bs.length < 2 ^ 64

/-- The parts behind the header, spelled as they are written. -/
def Body.ofContent : Content → Body
  | .number n => .number (Varint.encode n)
  | .bytes bs => .bytes (Varint.encode bs.length) bs

/-- The parts of a field as it is written. -/
def Frame.ofItem (i : Item) : Frame :=
  ⟨Varint.encode (i.content.kind.header i.tag), .ofContent i.content⟩

namespace Frame

theorem raw_ofItem (i : Item) : (ofItem i).raw = i.content.encoding i.tag := by
  rcases i with ⟨tag, _ | _⟩ <;> rfl

theorem item_ofItem (i : Item) : (ofItem i).item = i := by
  rcases i with ⟨tag, n | bs⟩ <;>
    simp only [item, Frame.tag, ofItem, Varint.value_encode, WireKind.header_div, Body.ofContent,
      Body.content]

theorem wellFormed_ofItem {i : Item} (h : i.content.Fits) : (ofItem i).WellFormed := by
  have hheader := WireKind.header_lt i.content.kind i.tag
  refine ⟨?_, ?_, ?_, ?_⟩
  · exact Varint.spelled_encode (by decide) (Nat.lt_trans hheader (by decide))
  · rw [ofItem, Varint.value_encode]
    exact hheader
  · rw [ofItem, Varint.value_encode, WireKind.header_mod]
    rcases i with ⟨tag, _ | _⟩ <;> rfl
  · rcases i with ⟨tag, n | bs⟩
    · exact Varint.spelled_encode (by decide) h
    · exact ⟨Varint.spelled_encode (by decide) h, Varint.value_encode _⟩

end Frame

/-- What a well-formed field says fits into 64 bits. -/
theorem Body.content_fits {b : Body} (h : b.WellFormed) : b.content.Fits := by
  cases b with
  | number spelling => exact h.value_lt
  | bytes length contents =>
    show contents.length < 2 ^ 64
    rw [← h.2]
    exact h.1.value_lt

end NoiseChannel
