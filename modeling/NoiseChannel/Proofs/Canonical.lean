import NoiseChannel.Proofs.Payloads

/-!
# Encoding again

What a payload type writes is never longer than any bytes that are decoded to it. Fields may be
spelled too long, be unknown, come in any order or more than once; each known field is written at
most once for every time that it stands there, under the same tag, and in no more bytes. The bytes
are counted tag by tag (`Condensed`), and no field is counted twice (`sizesUnder_append`).
-/

namespace NoiseChannel

/-! ## The bytes of one field -/

namespace Varint

theorem length_encode_value_le {a : Bytes} (h : Spelled 0 a) :
    (encode (value a)).length ≤ a.length := (shortest_encode h.value_lt).length_le a h rfl

theorem length_encode_mono {m n : Nat} (h : m ≤ n) : (encode m).length ≤ (encode n).length := by
  induction n using Nat.strongRecOn generalizing m with
  | ind n ih =>
    by_cases hm : m < 128
    · have hone : (encode m).length = 1 := by
        rw [encode, if_pos hm]
        rfl
      rw [hone]
      exact length_encode_pos n
    · have hn : 128 ≤ n := by omega
      rw [length_encode_succ (by omega), length_encode_succ hn]
      exact Nat.succ_le_succ (ih (n / 128) (by omega) (Nat.div_le_div_right h))

end Varint

/-- A text is spelled by the bytes that are read as it and by no others. -/
theorem Bytes.ofString_of_toString? {bs : Bytes} {s : String} (h : bs.toString? = some s) :
    ofString s = bs := by
  unfold toString? String.fromUTF8? at h
  split at h
  · cases h
    rfl
  · cases h

/-- How many bytes a field takes at least. -/
def Item.size (i : Item) : Nat := (i.content.encoding i.tag).length

def Item.sizes : List Item → Nat
  | [] => 0
  | i :: items => i.size + sizes items

/-- As it is written, a field takes no more bytes than in any other spelling. -/
theorem Frame.size_item_le {f : Frame} (h : f.WellFormed) : f.item.size ≤ f.raw.length := by
  have hheader : f.body.kind.header f.tag = Varint.value f.header := by
    have hlt := h.header_lt
    have hmod := h.header_mod
    rw [WireKind.header, Frame.tag, UInt8.toNat_ofNat']
    omega
  have hkind : f.item.content.kind = f.body.kind := by
    rcases f with ⟨header, _ | _⟩ <;> rfl
  have hfront := Varint.length_encode_value_le h.header_spelled
  have hbehind : f.item.content.body.length ≤ f.body.raw.length := by
    have hbody := h.body_wellFormed
    rw [Frame.item]
    generalize f.body = body at hbody
    cases body with
    | number spelling => exact Varint.length_encode_value_le hbody
    | bytes length contents =>
      have hlength := Varint.length_encode_value_le hbody.1
      rw [hbody.2] at hlength
      simp only [Body.content, Content.body, Body.raw, List.length_append]
      omega
  rw [Item.size, Content.encoding, hkind, List.length_append, Frame.raw, List.length_append]
  rw [show f.item.tag = f.tag from rfl, hheader]
  omega

theorem Frame.sizes_le {fs : List Frame} {b : Bytes} (h : Frame.Composes fs b) :
    Item.sizes (fs.map Frame.item) ≤ b.length := by
  induction fs generalizing b with
  | nil => exact Nat.zero_le _
  | cons f fs ih =>
    obtain ⟨hf, b', rfl, hfs⟩ := Frame.composes_cons.mp h
    have hfirst := Frame.size_item_le hf
    have hothers := ih hfs
    rw [List.map_cons, Item.sizes, List.length_append]
    exact Nat.add_le_add hfirst hothers

/-! ## The bytes under some tags -/

/-- How many bytes the fields with certain tags take at least. -/
def sizesUnder (tags : List UInt8) (items : List Item) : Nat :=
  Item.sizes (items.filter fun i => i.tag ∈ tags)

section Tags

variable {tags : List UInt8} {i : Item}

theorem sizesUnder_cons_mem (h : i.tag ∈ tags) (items : List Item) :
    sizesUnder tags (i :: items) = i.size + sizesUnder tags items := by
  simp only [sizesUnder, List.filter_cons, h, decide_true, if_true, Item.sizes]

theorem sizesUnder_cons_not_mem (h : i.tag ∉ tags) (items : List Item) :
    sizesUnder tags (i :: items) = sizesUnder tags items := by
  simp only [sizesUnder, List.filter_cons, h, decide_false, Bool.false_eq_true, if_false]

theorem sizesUnder_le (tags : List UInt8) (items : List Item) :
    sizesUnder tags items ≤ Item.sizes items := by
  induction items with
  | nil => exact Nat.le_refl _
  | cons i items ih =>
    rw [Item.sizes]
    by_cases h : i.tag ∈ tags
    · rw [sizesUnder_cons_mem h]
      exact Nat.add_le_add_left ih _
    · rw [sizesUnder_cons_not_mem h]
      exact Nat.le_add_left_of_le ih

/-- A field is not counted under two tags. -/
theorem sizesUnder_append {tag : UInt8} (hnew : tag ∉ tags) (items : List Item) :
    sizesUnder (tags ++ [tag]) items = sizesUnder tags items + sizesUnder [tag] items := by
  induction items with
  | nil => rfl
  | cons i items ih =>
    by_cases hmem : i.tag ∈ tags
    · have hnot : i.tag ∉ [tag] := by
        rw [List.mem_singleton]
        rintro rfl
        exact hnew hmem
      rw [sizesUnder_cons_mem (List.mem_append_left _ hmem), sizesUnder_cons_mem hmem,
        sizesUnder_cons_not_mem hnot, ih, Nat.add_assoc]
    · by_cases hmem' : i.tag ∈ [tag]
      · rw [sizesUnder_cons_mem (List.mem_append_right _ hmem'), sizesUnder_cons_not_mem hmem,
          sizesUnder_cons_mem hmem', ih, Nat.add_left_comm]
      · have hneither : i.tag ∉ tags ++ [tag] := by
          rw [List.mem_append, not_or]
          exact ⟨hmem, hmem'⟩
        rw [sizesUnder_cons_not_mem hneither, sizesUnder_cons_not_mem hmem,
          sizesUnder_cons_not_mem hmem', ih]

end Tags

/-! ## Writing again what has been said -/

/-- A field takes the place of one on the wire: it bears the same tag and takes no more bytes. -/
structure Field.Condenses (f : Field) (i : Item) : Prop where
  length_le : f.encoding.length ≤ i.size
  fits : i.content.Fits → f.item.content.Fits

/-- What the fields with certain tags say is said by `fs` in no more bytes. -/
structure Condensed (fs : List Field) (tags : List UInt8) (items : List Item) : Prop where
  length_le : (Field.encodings fs).length ≤ sizesUnder tags items
  fits : (∀ i ∈ items, i.content.Fits) → ∀ f ∈ fs, f.item.content.Fits

section Condensed

variable {fs fs' : List Field} {tag : UInt8} {tags : List UInt8} {items : List Item}

theorem Condensed.append (h : Condensed fs tags items) (hnew : tag ∉ tags)
    (h' : Condensed fs' [tag] items) : Condensed (fs ++ fs') (tags ++ [tag]) items := by
  constructor
  · rw [Field.encodings_append, List.length_append, sizesUnder_append hnew]
    exact Nat.add_le_add h.length_le h'.length_le
  · intro hfit
    exact List.forall_mem_append.mpr ⟨h.fits hfit, h'.fits hfit⟩

theorem Field.length_encodings_sublist (h : fs.Sublist fs') :
    (encodings fs).length ≤ (encodings fs').length := by
  induction h with
  | slnil => exact Nat.le_refl _
  | cons f _ ih =>
    rw [encodings, List.length_append]
    exact Nat.le_add_left_of_le ih
  | cons_cons f _ ih =>
    rw [encodings, encodings, List.length_append, List.length_append]
    exact Nat.add_le_add_left ih _

variable {α : Type} {meaning : Content → Option α} {field : α → Field}

theorem length_occurrences_le
    (h : ∀ c x, meaning c = some x → (field x).Condenses ⟨tag, c⟩) (items : List Item) :
    (Field.encodings ((occurrences meaning tag items).map field)).length ≤
      sizesUnder [tag] items := by
  induction items with
  | nil => exact Nat.le_refl _
  | cons i items ih =>
    unfold occurrences at ih ⊢
    rw [List.filterMap_cons]
    by_cases htag : i.tag = tag
    · obtain rfl := htag
      rw [if_pos rfl, sizesUnder_cons_mem (List.mem_singleton.mpr rfl)]
      cases hx : meaning i.content with
      | none => exact Nat.le_add_left_of_le ih
      | some x =>
        have hfirst := (h i.content x hx).length_le
        rw [List.map_cons, Field.encodings, List.length_append]
        exact Nat.add_le_add hfirst ih
    · rw [if_neg htag, sizesUnder_cons_not_mem (fun hmem => htag (List.mem_singleton.mp hmem))]
      exact ih

/-- A field for some of the occurrences, be it all of them or the last one. -/
theorem condensed_some (h : ∀ c x, meaning c = some x → (field x).Condenses ⟨tag, c⟩)
    {entries : List α} (hsub : entries.Sublist (occurrences meaning tag items)) :
    Condensed (entries.map field) [tag] items := by
  constructor
  · have hsome := Field.length_encodings_sublist (hsub.map field)
    exact Nat.le_trans hsome (length_occurrences_le h items)
  · intro hfit f hf
    obtain ⟨x, hx, rfl⟩ := List.mem_map.mp hf
    obtain ⟨i, hi, hmeans⟩ := List.mem_filterMap.mp (hsub.mem hx)
    by_cases htag : i.tag = tag
    · rw [if_pos htag] at hmeans
      exact (h i.content x hmeans).fits (hfit i hi)
    · rw [if_neg htag] at hmeans
      cases hmeans

theorem getLast?_sublist (xs : List α) : xs.getLast?.toList.Sublist xs := by
  rcases List.eq_nil_or_concat xs with rfl | ⟨front, x, rfl⟩
  · exact List.Sublist.refl _
  · simp

theorem raised_sublist (bs : List Bool) : (raised (bs.getLastD false)).Sublist bs := by
  rcases List.eq_nil_or_concat bs with rfl | ⟨front, b, rfl⟩
  · exact List.Sublist.refl _
  · cases b <;> simp [raised]

end Condensed

/-! ## Values -/

section Meaning

variable {tag : UInt8} {c : Content}

theorem Field.condenses_text {s : String} (h : c.text? = some s) :
    (Field.value tag (.string s)).Condenses ⟨tag, c⟩ := by
  cases c with
  | number n => cases h
  | bytes bs =>
    have hsame : (Value.string s).content = .bytes bs :=
      congrArg Content.bytes (Bytes.ofString_of_toString? h)
    rw [← hsame]
    exact ⟨by rw [encoding]; exact Nat.le_refl _, fun hfits => hfits⟩

theorem Field.condenses_blob {bs : Bytes} (h : c.blob? = some bs) :
    (Field.value tag (.bytes bs)).Condenses ⟨tag, c⟩ := by
  cases c with
  | number n => cases h
  | bytes bs' =>
    cases h
    exact ⟨by rw [encoding]; exact Nat.le_refl _, fun hfits => hfits⟩

theorem Field.condenses_short {n : UInt32} (h : c.short? = some n) :
    (Field.value tag (.uint32 n)).Condenses ⟨tag, c⟩ := by
  cases c with
  | bytes bs => cases h
  | number m =>
    rw [Content.short?] at h
    split at h
    · rename_i hm
      cases h
      have hsame : (Value.uint32 (UInt32.ofNat m)).content = .number m :=
        congrArg Content.number (UInt32.toNat_ofNat_of_lt' hm)
      rw [← hsame]
      exact ⟨by rw [encoding]; exact Nat.le_refl _, fun hfits => hfits⟩
    · cases h

/-- Whatever number stands for it, a truth value takes one byte. -/
theorem Field.condenses_flag {b : Bool} (h : c.flag? = some b) :
    (Field.value tag (.bool b)).Condenses ⟨tag, c⟩ := by
  cases c with
  | bytes bs => cases h
  | number n =>
    have hone : (Varint.encode b.toNat).length ≤ 1 :=
      Varint.length_encode_le 0 (Nat.lt_of_le_of_lt b.toNat_le (by decide))
    have hsome := Varint.length_encode_pos n
    constructor
    · rw [encoding, Item.size, Content.encoding, Content.encoding, List.length_append,
        List.length_append]
      exact Nat.add_le_add_left (Nat.le_trans hone hsome) _
    · intro _
      exact Nat.lt_of_le_of_lt b.toNat_le (by decide)

end Meaning

theorem ok_of_toOption {ε α : Type} {r : Except ε α} {x : α} (h : r.toOption = some x) :
    r = .ok x := by
  cases r with
  | error e => cases h
  | ok y => exact congrArg Except.ok (Option.some.inj h)

/-! ## Payloads of any type -/

section Payload

variable {σ : Type} {encode : σ → Bytes → Except LinkError Bytes}
  {decode : Bytes → Except LinkError σ} {Suits : Item → Prop} {gathered : List Item → σ}
  {fields : σ → List Field} {tags : List UInt8} {b : Bytes} {m kept : σ}

/-- Bytes that are decoded to a message are at least as many as those that are written for it. -/
theorem DecodesAs.shrinks (hd : DecodesAs decode Suits gathered)
    (hcondensed : ∀ items, Condensed (fields (gathered items)) tags items)
    (h : decode b = .ok m) :
    (Field.encodings (fields m)).length ≤ b.length ∧ ∀ f ∈ fields m, f.item.content.Fits := by
  obtain ⟨fs, hfs, -, rfl⟩ := (hd.ok_iff b m).mp h
  have hall := hcondensed (fs.map Frame.item)
  refine ⟨?_, hall.fits ?_⟩
  · calc (Field.encodings (fields (gathered (fs.map Frame.item)))).length
        ≤ sizesUnder tags (fs.map Frame.item) := hall.length_le
      _ ≤ Item.sizes (fs.map Frame.item) := sizesUnder_le tags _
      _ ≤ b.length := Frame.sizes_le hfs
  · intro i hi
    obtain ⟨f, hf, rfl⟩ := List.mem_map.mp hi
    exact Body.content_fits (hfs.wellFormed f hf).body_wellFormed

/-- Bytes that are decoded to `m` are decoded and encoded again: into any area with room for it, and
so into one as long as the bytes, goes an encoding that is not longer than they are. It is read as
what is kept of `m`, and encoding that gives the same bytes once more. -/
structure Reencodes (encode : σ → Bytes → Except LinkError Bytes)
    (decode : Bytes → Except LinkError σ) (b : Bytes) (m kept : σ) (encoding : Bytes) : Prop where
  length_le : encoding.length ≤ b.length
  encode_eq : ∀ area, encoding.length ≤ area.length → encode m area = .ok encoding
  decode_eq : decode encoding = .ok kept
  again : ∀ area, encoding.length ≤ area.length → encode kept area = .ok encoding

theorem DecodesAs.reencodes (hd : DecodesAs decode Suits gathered)
    (hcondensed : ∀ items, Condensed (fields (gathered items)) tags items)
    (hencode : ∀ m area, encode m area = ((Writer.new area).addFields (fields m)).written)
    (hsuit : ∀ m, ∀ f ∈ fields m, f.Closable ∧ Suits f.item)
    (hkept : gathered ((fields m).map Field.item) = kept) (hsame : fields kept = fields m)
    (h : decode b = .ok m) :
    Reencodes encode decode b m kept (Field.encodings (fields m)) := by
  obtain ⟨hlen, hfits⟩ := hd.shrinks hcondensed h
  have hclosable : Field.AllClosable (fields m) :=
    Field.allClosable_iff.mpr fun f hf => (hsuit m f hf).1
  have hwritten : ∀ m' area, fields m' = fields m →
      (Field.encodings (fields m)).length ≤ area.length →
        encode m' area = .ok (Field.encodings (fields m)) := by
    intro m' area heq hroom
    rw [hencode, heq, Writer.written_addFields hclosable, if_pos hroom]
  refine ⟨hlen, fun area => hwritten m area rfl, ?_, fun area => hwritten kept area hsame⟩
  rw [hd.decode_encodings hfits fun f hf => (hsuit m f hf).2, hkept]

end Payload

/-! ## The four types -/

section Entries

variable (tag : UInt8) (items : List Item)

theorem condensed_texts {entries : List String}
    (hsub : entries.Sublist (occurrences Content.text? tag items)) :
    Condensed (Field.each tag .string entries) [tag] items :=
  condensed_some (fun _ _ => Field.condenses_text) hsub

theorem condensed_text : Condensed
    (Field.each tag .string (occurrences Content.text? tag items).getLast?.toList) [tag] items :=
  condensed_some (fun _ _ => Field.condenses_text) (getLast?_sublist _)

theorem condensed_blob : Condensed
    (Field.each tag .bytes (occurrences Content.blob? tag items).getLast?.toList) [tag] items :=
  condensed_some (fun _ _ => Field.condenses_blob) (getLast?_sublist _)

theorem condensed_short : Condensed
    (Field.each tag .uint32 (occurrences Content.short? tag items).getLast?.toList) [tag] items :=
  condensed_some (fun _ _ => Field.condenses_short) (getLast?_sublist _)

theorem condensed_flag : Condensed
    (Field.each tag .bool (raised ((occurrences Content.flag? tag items).getLastD false))) [tag]
      items :=
  condensed_some (fun _ _ => Field.condenses_flag) (raised_sublist _)

end Entries

namespace ClientNegotiation

theorem condensed (items : List Item) :
    Condensed (gathered items).fields (RequestTag.all.map RequestTag.value) items :=
  condensed_text _ items
    |>.append (by decide) (condensed_text _ items)
    |>.append (by decide) (condensed_texts _ items (List.Sublist.refl _))
    |>.append (by decide) (condensed_texts _ items (List.Sublist.refl _))
    |>.append (by decide) (condensed_text _ items)
    |>.append (by decide) (condensed_blob _ items)

end ClientNegotiation

namespace ServerNegotiation

theorem condensed (items : List Item) :
    Condensed (gathered items).fields (ResponseTag.all.map ResponseTag.value) items :=
  condensed_text _ items
    |>.append (by decide) (condensed_text _ items)
    |>.append (by decide) (condensed_flag _ items)

end ServerNegotiation

namespace TransportOptions

theorem condensed (items : List Item) :
    Condensed (gathered items).fields (TransportTag.all.map TransportTag.value) items :=
  condensed_short _ items
    |>.append (by decide) (condensed_short _ items)
    |>.append (by decide) (condensed_flag _ items)
    |>.append (by decide) (condensed_flag _ items)

/-- As the options shrink, so does the length in front of them. -/
theorem condenses_field {c : Content} {t : TransportOptions} (h : c.transport? = some t) :
    t.field.Condenses ⟨OptionTag.transport.value, c⟩ := by
  cases c with
  | number n => cases h
  | bytes bs =>
    have hdecode : decode bs = .ok t := ok_of_toOption h
    have hshrinks := (decodes.shrinks condensed hdecode).1
    constructor
    · have hfront := Varint.length_encode_mono hshrinks
      rw [field, Field.encoding, Item.size]
      simp only [Content.encoding, Content.body, Content.kind, List.length_append]
      omega
    · intro hfits
      exact Nat.lt_of_le_of_lt hshrinks hfits

end TransportOptions

namespace PayloadOptions

theorem kept_transport_sublist (m : PayloadOptions) :
    m.kept.transport.toList.Sublist m.transport.toList := by
  unfold kept
  split
  · exact List.nil_sublist _
  · exact List.Sublist.refl _

theorem condensed (items : List Item) :
    Condensed (gathered items).fields (OptionTag.all.map OptionTag.value) items := by
  have htransport : Condensed
      ((gathered items).kept.transport.toList.map TransportOptions.field)
        [OptionTag.transport.value] items :=
    condensed_some (fun _ _ => TransportOptions.condenses_field)
      ((kept_transport_sublist _).trans (getLast?_sublist _))
  exact condensed_texts _ items (List.Sublist.refl _)
    |>.append (by decide) (condensed_text _ items)
    |>.append (by decide) (condensed_blob _ items)
    |>.append (by decide) (condensed_blob _ items)
    |>.append (by decide) htransport

theorem kept_kept (m : PayloadOptions) : m.kept.kept = m.kept := by
  by_cases hempty : m.transport = some {}
  · have hkept : m.kept = { m with transport := none } := if_pos hempty
    rw [hkept, kept, if_neg (Option.some_ne_none _).symm]
  · have hkept : m.kept = m := if_neg hempty
    rw [hkept, hkept]

theorem fields_kept (m : PayloadOptions) : m.kept.fields = m.fields := by
  have hsame := kept_eq m
  rw [fields, kept_kept, fields, hsame]

end PayloadOptions

/-- Encoding again what has been decoded never takes more bytes, and does nothing the second time.
Whatever bytes a payload type accepts, with unknown, repeated or reordered fields and with headers,
numbers and lengths that are spelled too long: the message is encoded in at most as many bytes,
these are decoded to the same message, and its encoding is the same. Only transport options that ask
for nothing are left out. -/
theorem reencoding_never_grows (b : Bytes) :
    (∀ m, ClientNegotiation.decode b = .ok m →
      Reencodes ClientNegotiation.encode ClientNegotiation.decode b m m
        (Field.encodings m.fields)) ∧
    (∀ m, ServerNegotiation.decode b = .ok m →
      Reencodes ServerNegotiation.encode ServerNegotiation.decode b m m
        (Field.encodings m.fields)) ∧
    (∀ m, TransportOptions.decode b = .ok m →
      Reencodes TransportOptions.encode TransportOptions.decode b m m
        (Field.encodings m.fields)) ∧
    ∀ m, PayloadOptions.decode b = .ok m →
      Reencodes PayloadOptions.encode PayloadOptions.decode b m m.kept
        (Field.encodings m.fields) := by
  refine ⟨?_, ?_, ?_, ?_⟩
  · intro m h
    refine ClientNegotiation.decodes.reencodes ClientNegotiation.condensed ?_
      ClientNegotiation.fields_suit m.gathered_fields rfl h
    intro m area
    exact congrArg Writer.written (m.write_eq (.new area))
  · intro m h
    refine ServerNegotiation.decodes.reencodes ServerNegotiation.condensed ?_
      ServerNegotiation.fields_suit m.gathered_fields rfl h
    intro m area
    exact congrArg Writer.written (m.write_eq (.new area))
  · intro m h
    refine TransportOptions.decodes.reencodes TransportOptions.condensed ?_
      TransportOptions.fields_suit m.gathered_fields rfl h
    intro m area
    exact congrArg Writer.written (m.write_eq (.new area))
  · intro m h
    refine PayloadOptions.decodes.reencodes PayloadOptions.condensed ?_
      PayloadOptions.fields_suit m.gathered_fields m.fields_kept h
    intro m area
    exact congrArg Writer.written (m.write_eq (.new area))

/-- With two long spellings, a truth value of 255, an unknown field and a repeated one, fifteen bytes
shrink to seven. -/
theorem reencoding_never_grows_options :
    let b : Bytes := [0xAA, 0, 0x85, 0, 0x18, 0xFF, 1, 0x48, 1, 0x22, 1, 7, 0x22, 1, 8]
    let m : PayloadOptions := { pskId := some [8], transport := some { continuousRekey := true } }
    PayloadOptions.decode b = .ok m ∧
      Reencodes PayloadOptions.encode PayloadOptions.decode b m m
        [0x22, 1, 8, 0x2A, 2, 0x18, 1] := by
  intro b m
  have hdecode : PayloadOptions.decode b = .ok m := ok_of_toOption (by decide +kernel)
  have hencoding : Field.encodings m.fields = [0x22, 1, 8, 0x2A, 2, 0x18, 1] := by
    decide +kernel
  have hkept : m.kept = m := by decide +kernel
  obtain ⟨-, -, -, hoptions⟩ := reencoding_never_grows b
  have hagain := hoptions m hdecode
  rw [hkept, hencoding] at hagain
  exact ⟨hdecode, hagain⟩

end NoiseChannel
