import NoiseChannel.Proofs.Capacity
import NoiseChannel.Proofs.Decoding

/-!
# Payloads survive encoding

What a payload type writes is a list of fields (`write_eq`), so that it is written where the fields
fit, and reading gives back what the fields amount to. That is the message itself: each of its parts
is in the fields that bear its tag, and in no others (`gathered_fields`).
-/

namespace NoiseChannel

/-! ## Fields as items -/

namespace Field

def item : Field → Item
  | .value tag v => ⟨tag, v.content⟩
  | .embedded tag fields => ⟨tag, .bytes (encodings fields)⟩

theorem encoding_item (f : Field) : f.item.content.encoding f.item.tag = f.encoding := by
  cases f <;> rw [encoding, item]

theorem item_fits {f : Field} (h : f.encoding.length < 2 ^ 64) : f.item.content.Fits := by
  cases f with
  | value tag v =>
    rw [encoding] at h
    exact Value.content_fits h
  | embedded tag fields =>
    rw [encoding, Content.encoding, Content.body, List.length_append, List.length_append] at h
    show (encodings fields).length < 2 ^ 64
    omega

theorem allClosable_iff {fs : List Field} : AllClosable fs ↔ ∀ f ∈ fs, f.Closable := by
  induction fs with
  | nil => simp [AllClosable]
  | cons f fs ih => simp [AllClosable, ih]

theorem items_fit {fs : List Field} (h : (encodings fs).length < 2 ^ 64) :
    ∀ f ∈ fs, f.item.content.Fits := by
  induction fs with
  | nil => simp
  | cons f fs ih =>
    rw [encodings, List.length_append] at h
    exact List.forall_mem_cons.mpr ⟨item_fits (by omega), ih (by omega)⟩

/-- The bytes of a message are made up of its fields. -/
theorem composes_encodings {fs : List Field} (h : ∀ f ∈ fs, f.item.content.Fits) :
    Frame.Composes (fs.map fun f => Frame.ofItem f.item) (encodings fs) := by
  induction fs with
  | nil =>
    rw [encodings]
    exact Frame.composes_nil
  | cons f fs ih =>
    obtain ⟨hfirst, hothers⟩ := List.forall_mem_cons.mp h
    have hf : (Frame.ofItem f.item).WellFormed := Frame.wellFormed_ofItem hfirst
    have hraw : (Frame.ofItem f.item).raw = f.encoding := by
      rw [Frame.raw_ofItem, encoding_item]
    rw [encodings, ← hraw, List.map_cons]
    exact Frame.composes_cons.mpr ⟨hf, encodings fs, rfl, ih hothers⟩

end Field

/-- Decoding the bytes of fields that suit gives what they amount to. -/
theorem DecodesAs.decode_encodings {σ : Type} {decode : Bytes → Except LinkError σ}
    {Suits : Item → Prop} {gathered : List Item → σ} (hd : DecodesAs decode Suits gathered)
    {fs : List Field} (hfits : ∀ f ∈ fs, f.item.content.Fits)
    (hsuits : ∀ f ∈ fs, Suits f.item) :
    decode (Field.encodings fs) = .ok (gathered (fs.map Field.item)) := by
  refine (hd.ok_iff _ _).mpr ⟨_, Field.composes_encodings hfits, ?_, ?_⟩
  · intro f hf
    obtain ⟨g, hg, rfl⟩ := List.mem_map.mp hf
    rw [Frame.item_ofItem]
    exact hsuits g hg
  · rw [List.map_map]
    congr 1
    refine List.map_congr_left ?_
    intro f _
    exact Frame.item_ofItem f.item

/-! ## Fields that bear one tag -/

namespace Content

theorem text?_string (s : String) : text? (Value.string s).content = some s :=
  Bytes.toString?_ofString s

theorem blob?_bytes (bs : Bytes) : blob? (Value.bytes bs).content = some bs := rfl

theorem short?_uint32 (n : UInt32) : short? (Value.uint32 n).content = some n := by
  have hn : n.toNat < 2 ^ 32 := n.toNat_lt
  rw [Value.content, short?, if_pos hn, UInt32.ofNat_toNat]

theorem flag?_bool (b : Bool) : flag? (Value.bool b).content = some b := by
  cases b <;> rfl

end Content

/-- A field for every entry. -/
def Field.each {α : Type} (tag : UInt8) (value : α → Value) (entries : List α) : List Field :=
  entries.map fun x => .value tag (value x)

theorem occurrences_append {α : Type} (meaning : Content → Option α) (tag : UInt8)
    (items items' : List Item) :
    occurrences meaning tag (items ++ items') =
      occurrences meaning tag items ++ occurrences meaning tag items' :=
  List.filterMap_append

section Occurrences

variable {α β : Type} {meaning : Content → Option α} {tag tag' : UInt8}

/-- The entries are what the fields say under their tag. -/
theorem occurrences_same {field : α → Field} (entries : List α)
    (htag : ∀ x, (field x).item.tag = tag)
    (hmeaning : ∀ x, meaning (field x).item.content = some x) :
    occurrences meaning tag ((entries.map field).map Field.item) = entries := by
  induction entries with
  | nil => rfl
  | cons x xs ih =>
    unfold occurrences at ih ⊢
    rw [List.map_cons, List.map_cons, List.filterMap_cons, if_pos (htag x), hmeaning x, ih]

theorem occurrences_other {field : β → Field} (entries : List β)
    (htag : ∀ x, (field x).item.tag ≠ tag) :
    occurrences meaning tag ((entries.map field).map Field.item) = [] := by
  induction entries with
  | nil => rfl
  | cons x xs ih =>
    unfold occurrences at ih ⊢
    rw [List.map_cons, List.map_cons, List.filterMap_cons, if_neg (htag x), ih]

theorem occurrences_each {value : α → Value} (h : ∀ x, meaning (value x).content = some x)
    (entries : List α) : occurrences meaning tag ((Field.each tag value entries).map Field.item) =
      entries :=
  occurrences_same entries (fun _ => rfl) h

theorem occurrences_each_other {value : β → Value} (entries : List β) (h : tag' ≠ tag) :
    occurrences meaning tag ((Field.each tag' value entries).map Field.item) = [] :=
  occurrences_other entries fun _ => h

end Occurrences

theorem getLast?_toList {α : Type} (x : Option α) : x.toList.getLast? = x := by
  cases x <;> rfl

/-- What is written for a flag: nothing unless it is raised. -/
def raised (b : Bool) : List Bool := if b then [true] else []

theorem getLast?_raised (b : Bool) : (raised b).getLast?.getD false = b := by
  cases b <;> rfl

theorem length_raised_le (b : Bool) : (raised b).length ≤ 1 := by
  cases b <;> decide

/-! ## Writing the fields of a payload -/

namespace Writer

variable (w : Writer) (tag : UInt8)

theorem addFields_append (fs gs : List Field) :
    w.addFields (fs ++ gs) = (w.addFields fs).addFields gs := by
  induction fs generalizing w with
  | nil => rw [List.nil_append, addFields]
  | cons f fs ih => rw [List.cons_append, addFields, addFields, ih]

theorem addStrings_eq (ss : List String) :
    w.addStrings tag ss = w.addFields (Field.each tag .string ss) := by
  induction ss generalizing w with
  | nil =>
    rw [Field.each, List.map_nil, addFields]
    rfl
  | cons s ss ih =>
    rw [Field.each, List.map_cons, addFields, ← Field.each, ← ih]
    rfl

theorem addString?_eq (s : Option String) :
    w.addString? tag s = w.addFields (Field.each tag .string s.toList) := by
  rw [← addStrings_eq]
  cases s <;> rfl

theorem addFields_toList {α : Type} (field : α → Field) (x : Option α) :
    w.addFields (x.toList.map field) = x.elim w fun x => w.addField (field x) := by
  cases x with
  | none => rw [Option.toList_none, List.map_nil, addFields, Option.elim]
  | some x => rw [Option.toList_some, List.map_singleton, addFields, addFields, Option.elim]

theorem addBytes?_eq (bs : Option Bytes) :
    w.addBytes? tag bs = w.addFields (Field.each tag .bytes bs.toList) := by
  rw [Field.each, addFields_toList]
  cases bs <;> rfl

theorem addLength?_eq (n : Option UInt32) :
    TransportOptions.addLength? w tag n = w.addFields (Field.each tag .uint32 n.toList) := by
  rw [Field.each, addFields_toList]
  cases n <;> rfl

theorem addFlag_eq (b : Bool) :
    w.addFlag tag b = w.addFields (Field.each tag .bool (raised b)) := by
  cases b with
  | false =>
    show w = w.addFields []
    rw [addFields]
  | true =>
    show w.addBool tag true = w.addFields [.value tag (.bool true)]
    rw [addFields, addFields]
    rfl

end Writer

/-! ## Payloads of any type -/

section Suits

variable {σ τ α : Type} {value : τ → UInt8} {slot : τ → Slot σ} {t : τ} {x : α → (slot t).α}

/-- Fields suit that say something under a tag of their own. -/
theorem Item.suits_same (hvalue : value.Injective) {field : α → Field}
    (htag : ∀ a, (field a).item.tag = value t)
    (hmeaning : ∀ a, (slot t).meaning (field a).item.content = some (x a)) (entries : List α) :
    ∀ f ∈ entries.map field, f.item.Suits value slot := by
  intro f hf t' ht
  obtain ⟨a, -, rfl⟩ := List.mem_map.mp hf
  rw [htag a] at ht
  rw [← hvalue ht]
  exact Option.isSome_of_eq_some (hmeaning a)

theorem Field.closable_each {tag : UInt8} {content : α → Value} (entries : List α) :
    ∀ f ∈ Field.each tag content entries, f.Closable := by
  intro f hf
  obtain ⟨a, -, rfl⟩ := List.mem_map.mp hf
  rw [Field.Closable]
  trivial

theorem Item.suits_each (hvalue : value.Injective) {content : α → Value}
    (hmeaning : ∀ a, (slot t).meaning (content a).content = some (x a)) (entries : List α) :
    ∀ f ∈ Field.each (value t) content entries, f.Closable ∧ f.item.Suits value slot := by
  intro f hf
  exact ⟨Field.closable_each entries f hf, suits_same hvalue (fun _ => rfl) hmeaning entries f hf⟩

end Suits

/-- A message is written if its bytes fit, and then reading them gives what is kept of it. If they do
not fit, the caller is told so. -/
structure Survives {σ : Type} (encode : σ → Bytes → Except LinkError Bytes)
    (decode : Bytes → Except LinkError σ) (m kept : σ) (encoding area : Bytes) : Prop where
  fitting : encoding.length ≤ area.length →
    encode m area = .ok encoding ∧ decode encoding = .ok kept
  too_long : area.length < encoding.length → encode m area = .error .encoding

/-- A message survives that is written as fields that suit its type. -/
theorem DecodesAs.survives {σ : Type} {encode : σ → Bytes → Except LinkError Bytes}
    {decode : Bytes → Except LinkError σ} {Suits : Item → Prop} {gathered : List Item → σ}
    (hd : DecodesAs decode Suits gathered) {m kept : σ} {fs : List Field} {area : Bytes}
    (hencode : encode m area = ((Writer.new area).addFields fs).written)
    (hfs : ∀ f ∈ fs, f.Closable ∧ Suits f.item) (hkept : gathered (fs.map Field.item) = kept)
    (hsize : area.length < 2 ^ 64) :
    Survives encode decode m kept (Field.encodings fs) area := by
  have hclosable : Field.AllClosable fs := Field.allClosable_iff.mpr fun f hf => (hfs f hf).1
  rw [Writer.written_addFields hclosable] at hencode
  constructor
  · intro hfits
    rw [if_pos hfits] at hencode
    refine ⟨hencode, ?_⟩
    rw [← hkept]
    refine hd.decode_encodings (Field.items_fit ?_) fun f hf => (hfs f hf).2
    exact Nat.lt_of_le_of_lt hfits hsize
  · intro hlong
    rw [if_neg (Nat.not_le.mpr hlong)] at hencode
    exact hencode

/-! ## Negotiation -/

theorem RequestTag.value_injective : value.Injective := by
  intro a b h
  cases a <;> cases b <;> first | rfl | exact absurd h (by decide)

theorem ResponseTag.value_injective : value.Injective := by
  intro a b h
  cases a <;> cases b <;> first | rfl | exact absurd h (by decide)

namespace ClientNegotiation

def fields (m : ClientNegotiation) : List Field :=
  Field.each RequestTag.serverName.value .string m.serverName.toList ++
  Field.each RequestTag.initialProtocol.value .string m.initialProtocol.toList ++
  Field.each RequestTag.switchProtocol.value .string m.switchProtocols ++
  Field.each RequestTag.retryProtocol.value .string m.retryProtocols ++
  Field.each RequestTag.rejectedProtocol.value .string m.rejectedProtocol.toList ++
  Field.each RequestTag.pskId.value .bytes m.pskId.toList

variable (m : ClientNegotiation)

theorem write_eq (w : Writer) : m.write w = w.addFields m.fields := by
  simp only [write, fields, Writer.addFields_append, Writer.addString?_eq, Writer.addStrings_eq,
    Writer.addBytes?_eq]

theorem fields_suit : ∀ f ∈ m.fields, f.Closable ∧ f.item.Suits RequestTag.value slot := by
  have htag := RequestTag.value_injective
  simp only [fields, List.forall_mem_append, and_assoc]
  exact ⟨Item.suits_each htag Content.text?_string _, Item.suits_each htag Content.text?_string _,
    Item.suits_each htag Content.text?_string _, Item.suits_each htag Content.text?_string _,
    Item.suits_each htag Content.text?_string _, Item.suits_each htag Content.blob?_bytes _⟩

theorem gathered_fields : gathered (m.fields.map Field.item) = m := by
  simp [gathered, fields, occurrences_append, occurrences_each Content.text?_string,
    occurrences_each Content.blob?_bytes, occurrences_each_other, RequestTag.value, getLast?_toList]

end ClientNegotiation

namespace ServerNegotiation

def fields (m : ServerNegotiation) : List Field :=
  Field.each ResponseTag.switchProtocol.value .string m.switchProtocol.toList ++
  Field.each ResponseTag.retryProtocol.value .string m.retryProtocol.toList ++
  Field.each ResponseTag.rejected.value .bool (raised m.rejected)

variable (m : ServerNegotiation)

theorem write_eq (w : Writer) : m.write w = w.addFields m.fields := by
  simp only [write, fields, Writer.addFields_append, Writer.addString?_eq, Writer.addFlag_eq]

theorem fields_suit : ∀ f ∈ m.fields, f.Closable ∧ f.item.Suits ResponseTag.value slot := by
  have htag := ResponseTag.value_injective
  simp only [fields, List.forall_mem_append, and_assoc]
  exact ⟨Item.suits_each htag Content.text?_string _, Item.suits_each htag Content.text?_string _,
    Item.suits_each htag Content.flag?_bool _⟩

theorem gathered_fields : gathered (m.fields.map Field.item) = m := by
  simp [gathered, fields, occurrences_append, occurrences_each Content.text?_string,
    occurrences_each Content.flag?_bool, occurrences_each_other, ResponseTag.value, getLast?_toList,
    getLast?_raised]

end ServerNegotiation

/-! ## Options -/

theorem TransportTag.value_injective : value.Injective := by
  intro a b h
  cases a <;> cases b <;> first | rfl | exact absurd h (by decide)

theorem OptionTag.value_injective : value.Injective := by
  intro a b h
  cases a <;> cases b <;> first | rfl | exact absurd h (by decide)

namespace Field

theorem encodings_append (fs gs : List Field) :
    encodings (fs ++ gs) = encodings fs ++ encodings gs := by
  induction fs with
  | nil => rw [List.nil_append, encodings, List.nil_append]
  | cons f fs ih => rw [List.cons_append, encodings, encodings, ih, List.append_assoc]

/-- The bytes of at most one short number. -/
theorem length_each_le {α : Type} {tag : UInt8} {value : α → Value} {entries : List α}
    (hone : entries.length ≤ 1) (hshort : ∀ x, ∃ n < 2 ^ 32, (value x).content = .number n) :
    (encodings (each tag value entries)).length ≤ 7 := by
  rcases entries with _ | ⟨x, _ | ⟨y, entries⟩⟩
  · rw [each, List.map_nil, encodings]
    exact Nat.zero_le _
  · obtain ⟨n, hn, hx⟩ := hshort x
    have hheader : (Varint.encode (WireKind.varint.header tag)).length ≤ 2 :=
      Varint.length_encode_le 1 (Nat.lt_trans (WireKind.header_lt _ _) (by decide))
    have hnumber : (Varint.encode n).length ≤ 5 :=
      Varint.length_encode_le 4 (Nat.lt_trans hn (by decide))
    rw [each, List.map_singleton, encodings, encodings, encoding, hx, List.append_nil]
    rw [Content.encoding, Content.kind, Content.body, List.length_append]
    omega
  · rw [List.length_cons, List.length_cons] at hone
    omega

end Field

namespace TransportOptions

def fields (m : TransportOptions) : List Field :=
  Field.each TransportTag.maxSendLength.value .uint32 m.maxSendLength.toList ++
  Field.each TransportTag.maxReceiveLength.value .uint32 m.maxReceiveLength.toList ++
  Field.each TransportTag.continuousRekey.value .bool (raised m.continuousRekey) ++
  Field.each TransportTag.shortTerminated.value .bool (raised m.shortTerminated)

variable (m : TransportOptions)

theorem write_eq (w : Writer) : m.write w = w.addFields m.fields := by
  simp only [write, fields, Writer.addFields_append, Writer.addLength?_eq, Writer.addFlag_eq]

theorem fields_suit : ∀ f ∈ m.fields, f.Closable ∧ f.item.Suits TransportTag.value slot := by
  have htag := TransportTag.value_injective
  simp only [fields, List.forall_mem_append, and_assoc]
  exact ⟨Item.suits_each htag Content.short?_uint32 _, Item.suits_each htag Content.short?_uint32 _,
    Item.suits_each htag Content.flag?_bool _, Item.suits_each htag Content.flag?_bool _⟩

theorem gathered_fields : gathered (m.fields.map Field.item) = m := by
  simp [gathered, fields, occurrences_append, occurrences_each Content.short?_uint32,
    occurrences_each Content.flag?_bool, occurrences_each_other, TransportTag.value, getLast?_toList,
    getLast?_raised]

/-- Transport options are short, whatever they ask for. -/
theorem length_encodings_fields : (Field.encodings m.fields).length ≤ 28 := by
  have hlength : ∀ tag (n : Option UInt32),
      (Field.encodings (Field.each tag .uint32 n.toList)).length ≤ 7 := by
    intro tag n
    refine Field.length_each_le ?_ fun n => ⟨n.toNat, n.toNat_lt, rfl⟩
    cases n <;> simp
  have hflag : ∀ tag (b : Bool),
      (Field.encodings (Field.each tag .bool (raised b))).length ≤ 7 := by
    intro tag b
    refine Field.length_each_le (length_raised_le b) fun b => ⟨b.toNat, ?_, rfl⟩
    exact Nat.lt_of_le_of_lt b.toNat_le (by decide)
  have hsend := hlength TransportTag.maxSendLength.value m.maxSendLength
  have hreceive := hlength TransportTag.maxReceiveLength.value m.maxReceiveLength
  have hrekey := hflag TransportTag.continuousRekey.value m.continuousRekey
  have hterminated := hflag TransportTag.shortTerminated.value m.shortTerminated
  simp only [fields, Field.encodings_append, List.length_append]
  omega

theorem decode_fields : decode (Field.encodings m.fields) = .ok m := by
  have hlength := m.length_encodings_fields
  have hsize : (Field.encodings m.fields).length < 2 ^ 64 := by omega
  have hdecode := decodes.decode_encodings (Field.items_fit hsize) fun f hf =>
    (m.fields_suit f hf).2
  rw [hdecode, gathered_fields]

/-- The options as an embedded message. -/
def field : Field := .embedded OptionTag.transport.value m.fields

theorem field_closable : m.field.Closable := by
  have hlength := m.length_encodings_fields
  have hmax : Writer.maxEmbedded = 65535 := rfl
  rw [field, Field.Closable]
  exact ⟨by omega, Field.allClosable_iff.mpr fun f hf => (m.fields_suit f hf).1⟩

theorem transport?_field : Content.transport? m.field.item.content = some m := by
  show (decode (Field.encodings m.fields)).toOption = some m
  rw [decode_fields]
  rfl

end TransportOptions

namespace PayloadOptions

/-- What is kept of the options: transport options that ask for nothing are left out. -/
def kept (m : PayloadOptions) : PayloadOptions :=
  if m.transport = some {} then { m with transport := none } else m

def fields (m : PayloadOptions) : List Field :=
  Field.each OptionTag.evidenceRequestType.value .string m.evidenceRequestTypes ++
  Field.each OptionTag.evidenceBlobType.value .string m.evidenceBlobType.toList ++
  Field.each OptionTag.evidenceBlob.value .bytes m.evidenceBlob.toList ++
  Field.each OptionTag.pskId.value .bytes m.pskId.toList ++
  m.kept.transport.toList.map TransportOptions.field

variable (m : PayloadOptions)

theorem writeTransport_eq (w : Writer) :
    (match m.transport with
      | some transport => writeTransport transport w
      | none => w) = w.addFields (m.kept.transport.toList.map TransportOptions.field) := by
  rw [Writer.addFields_toList, kept]
  rcases htransport : m.transport with _ | t
  · rw [if_neg (by decide), htransport]
    rfl
  · by_cases hempty : t = {}
    · subst hempty
      rw [if_pos rfl]
      rfl
    · have hsome : some t ≠ some {} := fun h => hempty (Option.some.inj h)
      have hasks : t.isEmpty ≠ true := fun h => hempty (eq_of_beq h)
      rw [if_neg hsome, htransport]
      show writeTransport t w = w.addField t.field
      rw [writeTransport, if_neg hasks, TransportOptions.field, Writer.addField]
      simp only [TransportOptions.write_eq]

theorem write_eq (w : Writer) : m.write w = w.addFields m.fields := by
  simp only [write, fields, Writer.addFields_append, Writer.addString?_eq, Writer.addStrings_eq,
    Writer.addBytes?_eq]
  exact m.writeTransport_eq _

theorem fields_suit : ∀ f ∈ m.fields, f.Closable ∧ f.item.Suits OptionTag.value slot := by
  have htag := OptionTag.value_injective
  have htransport : ∀ f ∈ m.kept.transport.toList.map TransportOptions.field,
      f.Closable ∧ f.item.Suits OptionTag.value slot := by
    intro f hf
    refine ⟨?_, Item.suits_same (t := .transport) htag (fun _ => rfl)
      TransportOptions.transport?_field _ f hf⟩
    obtain ⟨t, -, rfl⟩ := List.mem_map.mp hf
    exact t.field_closable
  simp only [fields, List.forall_mem_append, and_assoc]
  exact ⟨Item.suits_each htag Content.text?_string _, Item.suits_each htag Content.text?_string _,
    Item.suits_each htag Content.blob?_bytes _, Item.suits_each htag Content.blob?_bytes _,
    htransport⟩

theorem kept_eq : m.kept = { m with transport := m.kept.transport } := by
  unfold kept
  split <;> rfl

theorem gathered_fields : gathered (m.fields.map Field.item) = m.kept := by
  -- with the tag evaluated, as `simp` leaves it
  have htransport : occurrences Content.transport? 5
      ((m.kept.transport.toList.map TransportOptions.field).map Field.item) =
      m.kept.transport.toList :=
    occurrences_same _ (fun _ => rfl) TransportOptions.transport?_field
  have hother : ∀ {α : Type} (meaning : Content → Option α) {tag : UInt8}, tag ≠ 5 →
      occurrences meaning tag
        ((m.kept.transport.toList.map TransportOptions.field).map Field.item) = [] :=
    fun _ _ h => occurrences_other _ fun _ => h.symm
  rw [kept_eq, gathered, fields]
  simp only [List.map_append, occurrences_append]
  simp [-List.map_map, occurrences_each Content.text?_string, occurrences_each Content.blob?_bytes,
    occurrences_each_other, htransport, hother, OptionTag.value, getLast?_toList]

end PayloadOptions

/-- Payloads of every type survive. Whatever a message holds and whatever the area holds: it is written
if its bytes are not longer than the area, and is then read as it was, and the caller is told
otherwise. Only transport options that are there but ask for nothing are read as absent. No area has
`2 ^ 64` bytes. -/
theorem payloads_survive {area : Bytes} (hsize : area.length < 2 ^ 64) :
    (∀ m, Survives ClientNegotiation.encode ClientNegotiation.decode m m
      (Field.encodings m.fields) area) ∧
    (∀ m, Survives ServerNegotiation.encode ServerNegotiation.decode m m
      (Field.encodings m.fields) area) ∧
    (∀ m, Survives TransportOptions.encode TransportOptions.decode m m
      (Field.encodings m.fields) area) ∧
    ∀ m, Survives PayloadOptions.encode PayloadOptions.decode m m.kept
      (Field.encodings m.fields) area := by
  refine ⟨?_, ?_, ?_, ?_⟩
  · intro m
    have hencode := congrArg Writer.written (m.write_eq (.new area))
    exact ClientNegotiation.decodes.survives hencode m.fields_suit m.gathered_fields hsize
  · intro m
    have hencode := congrArg Writer.written (m.write_eq (.new area))
    exact ServerNegotiation.decodes.survives hencode m.fields_suit m.gathered_fields hsize
  · intro m
    have hencode := congrArg Writer.written (m.write_eq (.new area))
    exact TransportOptions.decodes.survives hencode m.fields_suit m.gathered_fields hsize
  · intro m
    have hencode := congrArg Writer.written (m.write_eq (.new area))
    exact PayloadOptions.decodes.survives hencode m.fields_suit m.gathered_fields hsize

/-- Empty texts are not absent ones, transport options that ask for nothing are. -/
theorem payloads_survive_empty_parts :
    let m : PayloadOptions :=
      { evidenceRequestTypes := ["", "é"], evidenceBlobType := some "", transport := some {} }
    (m.encode (Bytes.zeros 8) = .ok [10, 0, 10, 2, 195, 169, 18, 0] ∧
      PayloadOptions.decode [10, 0, 10, 2, 195, 169, 18, 0] = .ok { m with transport := none }) ∧
    m.encode (Bytes.zeros 7) = .error .encoding := by
  intro m
  have hencoding : Field.encodings m.fields = [10, 0, 10, 2, 195, 169, 18, 0] := by
    decide +kernel
  have height : (Bytes.zeros 8).length < 2 ^ 64 := by decide
  have hseven : (Bytes.zeros 7).length < 2 ^ 64 := by decide
  obtain ⟨-, -, -, hoptions⟩ := payloads_survive height
  obtain ⟨-, -, -, hoptions'⟩ := payloads_survive hseven
  have hfitting := (hoptions m).fitting
  have hlong := (hoptions' m).too_long
  rw [hencoding] at hfitting hlong
  exact ⟨hfitting (by decide), hlong (by decide)⟩

end NoiseChannel
