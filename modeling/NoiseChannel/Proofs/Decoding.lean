import NoiseChannel.Proofs.Gathering

/-!
# What the payloads say

For each type of payload: the fields that it knows, with their forms (`slot`), and the value that a
list of fields amounts to (`gathered`). Its decoder accepts exactly the messages whose fields suit and
gives what they amount to (`payloads_decoded`). Transport options stand in payload options as a
message of their own; entering and leaving it, the reader ends up behind the field, and so reading
them is a call like the others (`reads_embedded`).
-/

namespace NoiseChannel

theorem occurrences_concat {α : Type} (meaning : Content → Option α) (tag : UInt8)
    (items : List Item) (i : Item) :
    occurrences meaning tag (items ++ [i]) =
      occurrences meaning tag items ++ if i.tag = tag then (meaning i.content).toList else [] := by
  unfold occurrences
  rw [List.filterMap_append]
  congr 1
  by_cases h : i.tag = tag
  · rw [if_pos h]
    cases hc : meaning i.content <;> simp [h, hc]
  · rw [if_neg h]
    simp [h]

/-- Decoding accepts the messages whose fields all suit, and nothing else, and gives what they amount
to. -/
structure DecodesAs {σ : Type} (decode : Bytes → Except LinkError σ) (Suits : Item → Prop)
    (gathered : List Item → σ) : Prop where
  ok_iff : ∀ b m, decode b = .ok m ↔
    ∃ fs, Frame.Composes fs b ∧ (∀ f ∈ fs, Suits f.item) ∧ gathered (fs.map Frame.item) = m
  malformed_iff : ∀ b, decode b = .error .malformed ↔
    ¬ ∃ fs, Frame.Composes fs b ∧ ∀ f ∈ fs, Suits f.item

/-- A decoder that visits all fields of its input decodes what its visitor gathers. -/
theorem Reader.Gathers.decodes {σ : Type} {visit : UInt8 → σ → Reader → σ × Reader}
    {Suits : Item → Prop} {gathered : List Item → σ} {decode : Bytes → Except LinkError σ}
    (hv : Gathers visit Suits gathered)
    (hdecode : ∀ b, decode b = ((new b).visitAll visit (gathered [])).2.finish.map fun _ =>
      ((new b).visitAll visit (gathered [])).1) :
    DecodesAs decode Suits gathered := by
  have hfinish : ∀ b, (∃ fs, Frame.Composes fs b ∧ (∀ f ∈ fs, Suits f.item) ∧
      decode b = .ok (gathered (fs.map Frame.item))) ∨
      (¬ ∃ fs, Frame.Composes fs b ∧ ∀ f ∈ fs, Suits f.item) ∧ decode b = .error .malformed := by
    intro b
    rcases hv.visitAll (faces_new b) with ⟨fs, r', hfs, hsuits, hvisit, hpast⟩ | ⟨hnone, hfailed⟩
    · refine Or.inl ⟨fs, hfs, hsuits, ?_⟩
      rw [hdecode, hvisit, finish, hpast.failed_eq]
      rfl
    · refine Or.inr ⟨hnone, ?_⟩
      rw [hdecode, finish, hfailed]
      rfl
  constructor
  · intro b m
    rcases hfinish b with ⟨fs, hfs, hsuits, hok⟩ | ⟨hnone, herror⟩
    · rw [hok, Except.ok.injEq]
      constructor
      · intro hm
        exact ⟨fs, hfs, hsuits, hm⟩
      · rintro ⟨fs', hfs', -, hm⟩
        rw [(hfs.splits.unique hfs'.splits).1, hm]
    · rw [herror]
      constructor
      · intro h
        cases h
      · rintro ⟨fs, hfs, hsuits, -⟩
        exact absurd ⟨fs, hfs, hsuits⟩ hnone
  · intro b
    rcases hfinish b with ⟨fs, hfs, hsuits, hok⟩ | ⟨hnone, herror⟩
    · rw [hok]
      constructor
      · intro h
        cases h
      · intro hnone
        exact absurd ⟨fs, hfs, hsuits⟩ hnone
    · exact iff_of_true herror hnone

theorem find?_tag_eq_none {τ : Type} {value : τ → UInt8} {tag : UInt8} (all : List τ)
    (h : ∀ t, tag ≠ value t) : (all.find? fun t => value t = tag) = none := by
  refine List.find?_eq_none.mpr ?_
  intro t _ ht
  exact h t (of_decide_eq_true ht).symm

/-! ## Negotiation -/

namespace ClientNegotiation

def slot : RequestTag → Slot ClientNegotiation
  | .serverName => .text fun m s => { m with serverName := some s }
  | .initialProtocol => .text fun m s => { m with initialProtocol := some s }
  | .switchProtocol => .text fun m s => { m with switchProtocols := m.switchProtocols ++ [s] }
  | .retryProtocol => .text fun m s => { m with retryProtocols := m.retryProtocols ++ [s] }
  | .rejectedProtocol => .text fun m s => { m with rejectedProtocol := some s }
  | .pskId => .blob fun m bs => { m with pskId := some bs }

/-- The request that some fields amount to. -/
def gathered (items : List Item) : ClientNegotiation where
  serverName := (occurrences Content.text? RequestTag.serverName.value items).getLast?
  initialProtocol := (occurrences Content.text? RequestTag.initialProtocol.value items).getLast?
  switchProtocols := occurrences Content.text? RequestTag.switchProtocol.value items
  retryProtocols := occurrences Content.text? RequestTag.retryProtocol.value items
  rejectedProtocol := (occurrences Content.text? RequestTag.rejectedProtocol.value items).getLast?
  pskId := (occurrences Content.blob? RequestTag.pskId.value items).getLast?

theorem gathers : Reader.Gathers visit (Item.Suits RequestTag.value slot) gathered := by
  refine Reader.gathers_slots ?_ ?_ ?_ ?_
  · intro t m r
    cases t <;> rfl
  · intro tag m r hunknown
    have hnone : RequestTag.ofValue? tag = none := find?_tag_eq_none _ hunknown
    rw [visit, hnone]
  · intro t items c x hx
    cases t <;> dsimp only [slot, Slot.text, Slot.blob] at x hx ⊢ <;>
      simp [gathered, occurrences_concat, RequestTag.value, hx]
  · intro i items hunknown
    simp only [gathered, occurrences_concat, hunknown, if_false, List.append_nil]

theorem decodes : DecodesAs decode (Item.Suits RequestTag.value slot) gathered :=
  gathers.decodes fun _ => rfl

end ClientNegotiation

namespace ServerNegotiation

def slot : ResponseTag → Slot ServerNegotiation
  | .switchProtocol => .text fun m s => { m with switchProtocol := some s }
  | .retryProtocol => .text fun m s => { m with retryProtocol := some s }
  | .rejected => .flag fun m b => { m with rejected := b }

/-- The response that some fields amount to. -/
def gathered (items : List Item) : ServerNegotiation where
  switchProtocol := (occurrences Content.text? ResponseTag.switchProtocol.value items).getLast?
  retryProtocol := (occurrences Content.text? ResponseTag.retryProtocol.value items).getLast?
  rejected := (occurrences Content.flag? ResponseTag.rejected.value items).getLastD false

theorem gathers : Reader.Gathers visit (Item.Suits ResponseTag.value slot) gathered := by
  refine Reader.gathers_slots ?_ ?_ ?_ ?_
  · intro t m r
    cases t <;> rfl
  · intro tag m r hunknown
    have hnone : ResponseTag.ofValue? tag = none := find?_tag_eq_none _ hunknown
    rw [visit, hnone]
  · intro t items c x hx
    cases t <;> dsimp only [slot, Slot.text, Slot.flag] at x hx ⊢ <;>
      simp [gathered, occurrences_concat, ResponseTag.value, hx]
  · intro i items hunknown
    simp only [gathered, occurrences_concat, hunknown, if_false, List.append_nil]

theorem decodes : DecodesAs decode (Item.Suits ResponseTag.value slot) gathered :=
  gathers.decodes fun _ => rfl

end ServerNegotiation

/-! ## Options -/

namespace TransportOptions

def slot : TransportTag → Slot TransportOptions
  | .maxSendLength => .short fun m n => { m with maxSendLength := some n }
  | .maxReceiveLength => .short fun m n => { m with maxReceiveLength := some n }
  | .continuousRekey => .flag fun m b => { m with continuousRekey := b }
  | .shortTerminated => .flag fun m b => { m with shortTerminated := b }

/-- The transport options that some fields amount to. -/
def gathered (items : List Item) : TransportOptions where
  maxSendLength := (occurrences Content.short? TransportTag.maxSendLength.value items).getLast?
  maxReceiveLength := (occurrences Content.short? TransportTag.maxReceiveLength.value items).getLast?
  continuousRekey := (occurrences Content.flag? TransportTag.continuousRekey.value items).getLastD false
  shortTerminated := (occurrences Content.flag? TransportTag.shortTerminated.value items).getLastD false

theorem gathers : Reader.Gathers visit (Item.Suits TransportTag.value slot) gathered := by
  refine Reader.gathers_slots ?_ ?_ ?_ ?_
  · intro t m r
    cases t <;> rfl
  · intro tag m r hunknown
    have hnone : TransportTag.ofValue? tag = none := find?_tag_eq_none _ hunknown
    rw [visit, hnone]
  · intro t items c x hx
    cases t <;> dsimp only [slot, Slot.short, Slot.flag] at x hx ⊢ <;>
      simp [gathered, occurrences_concat, TransportTag.value, hx]
  · intro i items hunknown
    simp only [gathered, occurrences_concat, hunknown, if_false, List.append_nil]

theorem decodes : DecodesAs decode (Item.Suits TransportTag.value slot) gathered :=
  gathers.decodes fun _ => rfl

/-- Reads the present field as an embedded message. -/
def readEmbedded (r : Reader) : TransportOptions × Reader :=
  let (outer, r) := r.startEmbedded
  let (m, r) := read r
  (m, r.endEmbedded outer)

end TransportOptions

def Content.transport? : Content → Option TransportOptions
  | .bytes bs => (TransportOptions.decode bs).toOption
  | .number _ => none

namespace TransportOptions

/-- In a message of its own or in an embedded one, the same is read. -/
theorem read_faces {r : Reader} {ahead : Bytes} (h : r.Faces ahead) :
    (∃ m r', decode ahead = .ok m ∧ read r = (m, r') ∧ r.Past ahead.length r') ∨
      decode ahead = .error .malformed ∧ (read r).2.failed = true := by
  rcases gathers.visitAll h with ⟨fs, r', hfs, hsuits, hvisit, hpast⟩ | ⟨hnone, hfailed⟩
  · exact Or.inl ⟨_, r', (decodes.ok_iff _ _).mpr ⟨fs, hfs, hsuits, rfl⟩, hvisit, hpast⟩
  · exact Or.inr ⟨(decodes.malformed_iff _).mpr hnone, hfailed⟩

theorem readEmbedded_failed {r r' : Reader} {outer : Reader.Boundary}
    (hstart : r.startEmbedded = (outer, r')) (hfailed : (read r').2.failed = true) :
    (readEmbedded r).2.failed = true := by
  rw [readEmbedded, hstart]
  simp only [Reader.endEmbedded, hfailed, if_true]

/-- Transport options that stand in a field are read as by themselves. -/
theorem reads_embedded : Reader.Reads readEmbedded Content.transport? := by
  constructor
  · rintro r rest (n | bs) x h hholds hx
    · cases hx
    · obtain ⟨r₁, hstart, hinput, hstop, hinside⟩ := Reader.startEmbedded_eq h hholds
      rw [Content.transport?] at hx
      rcases read_faces hinside with ⟨m, r₂, hok, hread, hthrough⟩ | ⟨herror, -⟩
      · rw [hok] at hx
        cases hx
        refine ⟨r₂.endEmbedded ⟨r.stop⟩, ?_, ?_⟩
        · rw [readEmbedded, hstart]
          simp only [hread]
        · exact Reader.endEmbedded_eq hthrough.failed_eq (hthrough.stop_eq.trans hstop) h.pos_le
            (hthrough.input_eq.trans hinput)
      · rw [herror] at hx
        cases hx
  · rintro r rest (n | bs) h hholds hnone
    · -- descending into a number fails, and so do the visit and the return
      have hkind : r.kind = some .varint := hholds.kind_eq
      have hstart : r.startEmbedded = (⟨0⟩, r.fail) := by
        rw [Reader.startEmbedded, h.failed_eq, if_neg (by decide), hkind, if_neg (by decide)]
      refine readEmbedded_failed hstart ?_
      rw [read, Reader.visitAll, Reader.visitUpTo_failed rfl]
      rfl
    · obtain ⟨r₁, hstart, -, -, hinside⟩ := Reader.startEmbedded_eq h hholds
      rw [Content.transport?] at hnone
      rcases read_faces hinside with ⟨m, r₂, hok, -, -⟩ | ⟨-, hfailed⟩
      · rw [hok] at hnone
        cases hnone
      · exact readEmbedded_failed hstart hfailed

end TransportOptions

namespace PayloadOptions

def slot : OptionTag → Slot PayloadOptions
  | .evidenceRequestType =>
    .text fun m s => { m with evidenceRequestTypes := m.evidenceRequestTypes ++ [s] }
  | .evidenceBlobType => .text fun m s => { m with evidenceBlobType := some s }
  | .evidenceBlob => .blob fun m bs => { m with evidenceBlob := some bs }
  | .pskId => .blob fun m bs => { m with pskId := some bs }
  | .transport =>
    ⟨TransportOptions, TransportOptions.readEmbedded, Content.transport?,
      TransportOptions.reads_embedded, fun m t => { m with transport := some t }⟩

/-- The payload options that some fields amount to. -/
def gathered (items : List Item) : PayloadOptions where
  evidenceRequestTypes := occurrences Content.text? OptionTag.evidenceRequestType.value items
  evidenceBlobType := (occurrences Content.text? OptionTag.evidenceBlobType.value items).getLast?
  evidenceBlob := (occurrences Content.blob? OptionTag.evidenceBlob.value items).getLast?
  pskId := (occurrences Content.blob? OptionTag.pskId.value items).getLast?
  transport := (occurrences Content.transport? OptionTag.transport.value items).getLast?

theorem gathers : Reader.Gathers visit (Item.Suits OptionTag.value slot) gathered := by
  refine Reader.gathers_slots ?_ ?_ ?_ ?_
  · intro t m r
    cases t <;> rfl
  · intro tag m r hunknown
    have hnone : OptionTag.ofValue? tag = none := find?_tag_eq_none _ hunknown
    rw [visit, hnone]
  · intro t items c x hx
    cases t <;> dsimp only [slot, Slot.text, Slot.blob] at x hx ⊢ <;>
      simp [gathered, occurrences_concat, OptionTag.value, hx]
  · intro i items hunknown
    simp only [gathered, occurrences_concat, hunknown, if_false, List.append_nil]

theorem decodes : DecodesAs decode (Item.Suits OptionTag.value slot) gathered :=
  gathers.decodes fun _ => rfl

end PayloadOptions

/-- Each type of payload is decoded from the messages whose known fields have the form that the type
gives them, and from nothing else. A list holds every occurrence of its field in order, everything
else is the last occurrence, the embedded transport options as a whole, and unknown fields say
nothing. -/
theorem payloads_decoded :
    DecodesAs ClientNegotiation.decode
      (Item.Suits RequestTag.value ClientNegotiation.slot) ClientNegotiation.gathered ∧
    DecodesAs ServerNegotiation.decode
      (Item.Suits ResponseTag.value ServerNegotiation.slot) ServerNegotiation.gathered ∧
    DecodesAs TransportOptions.decode
      (Item.Suits TransportTag.value TransportOptions.slot) TransportOptions.gathered ∧
    DecodesAs PayloadOptions.decode
      (Item.Suits OptionTag.value PayloadOptions.slot) PayloadOptions.gathered :=
  ⟨ClientNegotiation.decodes, ServerNegotiation.decodes, TransportOptions.decodes,
    PayloadOptions.decodes⟩

end NoiseChannel
