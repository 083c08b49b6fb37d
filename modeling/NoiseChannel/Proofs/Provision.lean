import NoiseChannel.Proofs.Agreement
import NoiseChannel.Proofs.OptionCalls

/-!
# Handshakes made from link options

Link options look whether a handshake has the keys that it needs as they make it, and a handshake
looks again as it starts, when it has forgotten stale keys. Both ask the same: whether the keys at
hand are all that the protocol needs in the given role. For the start this is `start_answer`, where
it matters that no protocol needs a key which its pattern has forgotten; for the options it is
`createHandshake_eq`. What is made holds the keys that are needed and no others (`hasKey_needed`), so
it starts (`needed_starts`).
-/

namespace NoiseChannel

/-- Whether a key is among those needed. No protocol needs ephemeral keys beforehand. -/
def KeyNeeds.includes (needs : KeyNeeds) : KeyId → Bool
  | .localStatic => needs.localStatic
  | .remoteStatic => needs.remoteStatic
  | .presharedKey => needs.psk
  | .localEphemeral | .remoteEphemeral => false

namespace Handshake

/-! ## The keys of a handshake and its start -/

section Start

variable {h h' : Handshake} {needs : KeyNeeds}

theorem holds_iff : h.holds needs = true ↔ ∀ id, needs.includes id = true → h.hasKey id = true := by
  have himplies : ∀ a b : Bool, (!a || b) = true ↔ (a = true → b = true) := by decide
  simp only [holds, Bool.and_eq_true, himplies]
  constructor
  · rintro ⟨⟨hlocal, hremote⟩, hpsk⟩ id hid
    cases id with
    | localStatic => exact hlocal hid
    | remoteStatic => exact hremote hid
    | presharedKey => exact hpsk hid
    | localEphemeral => cases hid
    | remoteEphemeral => cases hid
  · intro hall
    exact ⟨⟨hall .localStatic, hall .remoteStatic⟩, hall .presharedKey⟩

/-- With more keys, no more is missing. -/
theorem holds_mono (hkeys : ∀ id, h.hasKey id = true → h'.hasKey id = true)
    (hholds : h.holds needs = true) : h'.holds needs = true :=
  holds_iff.mpr fun id hid => hkeys id (holds_iff.mp hholds id hid)

/-- What is forgotten is not gained. -/
theorem hasKey_forgetStale {p : Pattern} {id : KeyId}
    (hkey : { h with slots := p.forgetStale h.slots }.hasKey id = true) : h.hasKey id = true := by
  cases p <;> cases id <;> first | exact hkey | cases hkey

/-- A handshake of a registered protocol starts if and only if it has the keys that it needs in the
role; the prologue is of no account. -/
theorem start_answer (hregistered : h.protocol ∈ Protocol.registry) (hphase : h.phase = .initial)
    (role : Role) (prologue : Bytes) :
    (h.start role prologue).2 =
      if h.holds (h.protocol.needs role) = true then .ok () else .error .missingKey := by
  by_cases hholds : h.holds (h.protocol.needs role) = true
  · have hready : h.Ready h.protocol role := ⟨rfl, hphase, hholds⟩
    rw [if_pos hholds, hready.start_eq hregistered prologue]
  · have hstill : ¬ { h with slots := h.pattern.forgetStale h.slots }.holds
        (h.protocol.needs role) = true :=
      fun hstill => hholds (holds_mono (fun _ => hasKey_forgetStale) hstill)
    rw [if_neg hholds, start, hphase]
    exact congrArg Prod.snd (if_neg hstill)

end Start

/-! ## Setting keys -/

/-- A new handshake of `p` in which the keys that are given have been set, one after the other. -/
def load (p : Protocol) (pair : Option KeyPair) (key : Option PublicKey)
    (psk : Option PresharedKey) : Except Error Handshake := do
  let h := new p
  let h ← match pair with
    | some pair => h.setLocalKeyPair pair
    | none => pure h
  let h ← match key with
    | some key => h.setRemotePublicKey key
    | none => pure h
  match psk with
    | some psk => h.setPresharedKey psk.bytes
    | none => pure h

/-- What comes of it. -/
def loaded (p : Protocol) (pair : Option KeyPair) (key : Option PublicKey)
    (psk : Option PresharedKey) : Handshake :=
  { new p with slots := { localStatic := pair, remoteStatic := key }, psk }

theorem setPresharedKey_bytes {h : Handshake} (hphase : h.phase = .initial) (psk : PresharedKey) :
    h.setPresharedKey psk.bytes = .ok { h with psk := some psk } := by
  rw [setPresharedKey, checkKeysMutable, hphase, PresharedKey.ofBytes, dif_pos psk.length_bytes]
  rfl

/-- A new handshake takes every key that it is given. -/
theorem load_eq (p : Protocol) (pair : Option KeyPair) (key : Option PublicKey)
    (psk : Option PresharedKey) : load p pair key psk = .ok (loaded p pair key psk) := by
  cases psk with
  | none => cases pair <;> cases key <;> rfl
  | some psk =>
    have hlast : load p pair key (some psk)
        = (loaded p pair key none).setPresharedKey psk.bytes := by
      cases pair <;> cases key <;> rfl
    rw [hlast, setPresharedKey_bytes rfl]
    rfl

/-- A handshake that is given only the needed ones of some keys has just these. -/
theorem hasKey_loaded_filter {p : Protocol} {needs : KeyNeeds} {pair : Option KeyPair}
    {key : Option PublicKey} {psk : Option PresharedKey} (id : KeyId) :
    (loaded p (pair.filter fun _ => needs.localStatic) (key.filter fun _ => needs.remoteStatic)
      (psk.filter fun _ => needs.psk)).hasKey id
      = (needs.includes id && (loaded p pair key psk).hasKey id) := by
  have hfilter : ∀ {α : Type} (x : Option α) (b : Bool),
      (x.filter fun _ => b).isSome = (b && x.isSome) := by
    intro α x b
    cases x <;> cases b <;> rfl
  cases id with
  | localStatic => exact hfilter pair _
  | remoteStatic => exact hfilter key _
  | presharedKey => exact hfilter psk _
  | localEphemeral => rfl
  | remoteEphemeral => rfl

end Handshake

namespace LinkOptions

/-- Sets every key that the options have in a new handshake of `p`. -/
def loadAll (o : LinkOptions) (p : Protocol) : Except Error Handshake :=
  Handshake.load p o.localKeyPair o.remotePublic o.psk

/-- The handshake of `p` with every key that the options have. -/
def full (o : LinkOptions) (p : Protocol) : Handshake :=
  Handshake.loaded p o.localKeyPair o.remotePublic o.psk

/-- The handshake of `p` with every key that the options have and `p` needs. -/
def needed (o : LinkOptions) (p : Protocol) (role : Role) : Handshake :=
  Handshake.loaded p (o.localKeyPair.filter fun _ => (p.needs role).localStatic)
    (o.remotePublic.filter fun _ => (p.needs role).remoteStatic)
    (o.psk.filter fun _ => (p.needs role).psk)

section Create

variable {o : LinkOptions} {p : Protocol} {role : Role} {index : Nat}

/-- The options look whether a handshake with all their keys would lack one that is needed. -/
theorem missing_eq (o : LinkOptions) (p : Protocol) (needs : KeyNeeds) :
    ((needs.localStatic && (o.localKeyPair.filter fun _ => needs.localStatic).isNone) ||
        (needs.remoteStatic && (o.remotePublic.filter fun _ => needs.remoteStatic).isNone) ||
        (needs.psk && (o.psk.filter fun _ => needs.psk).isNone))
      = !(o.full p).holds needs := by
  have hmissing : ∀ {α : Type} (x : Option α) (b : Bool),
      (b && (x.filter fun _ => b).isNone) = !(!b || x.isSome) := by
    intro α x b
    cases x <;> cases b <;> rfl
  rw [hmissing, hmissing, hmissing, ← Bool.not_and, ← Bool.not_and]
  rfl

/-- The options make a handshake by giving it those of their keys that are needed. -/
theorem createHandshake_eq (hp : o.protocolAt? index = some p) (role : Role) :
    o.createHandshake role index =
      if (o.full p).holds (p.needs role) = true then .ok (o.needed p role)
      else .error (.handshake .missingKey) := by
  have hload : Handshake.load p (o.localKeyPair.filter fun _ => (p.needs role).localStatic)
      (o.remotePublic.filter fun _ => (p.needs role).remoteStatic)
      (o.psk.filter fun _ => (p.needs role).psk) = .ok (o.needed p role) :=
    Handshake.load_eq _ _ _ _
  rw [createHandshake, hp]
  dsimp only
  rw [missing_eq o p]
  cases (o.full p).holds (p.needs role) with
  | false => rfl
  | true =>
    rw [if_neg (by decide), if_pos rfl]
    split
    · rename_i made hloaded
      exact congrArg Except.ok (Except.ok.inj (hloaded.symm.trans hload))
    · rename_i e hloaded
      cases hloaded.symm.trans hload

/-- If nothing that is needed is missing, the handshake that is made has what is needed and nothing
else. -/
theorem hasKey_needed (hholds : (o.full p).holds (p.needs role) = true) (id : KeyId) :
    (o.needed p role).hasKey id = (p.needs role).includes id := by
  have hneeded : (o.needed p role).hasKey id
      = ((p.needs role).includes id && (o.full p).hasKey id) :=
    Handshake.hasKey_loaded_filter id
  rw [hneeded]
  cases hid : (p.needs role).includes id with
  | false => rfl
  | true => exact Handshake.holds_iff.mp hholds id hid

theorem filter_of_needed {α : Type} {x : Option α} {b : Bool} (hb : b = true) :
    x.filter (fun _ => b) = x := by
  subst hb
  cases x <;> rfl

theorem needed_starts (hregistered : p ∈ Protocol.registry)
    (hholds : (o.full p).holds (p.needs role) = true) (prologue : Bytes) :
    ((o.needed p role).start role prologue).2 = .ok () := by
  have hstart : ((o.needed p role).start role prologue).2 =
      if (o.needed p role).holds (p.needs role) = true then .ok () else .error .missingKey :=
    Handshake.start_answer hregistered rfl role prologue
  rw [hstart]
  exact if_pos (Handshake.holds_iff.mpr fun id hid => (hasKey_needed hholds id).trans hid)

theorem createHandshake_eq_noSuchProtocol_iff :
    o.createHandshake role index = .error .noSuchProtocol ↔ o.protocols.length ≤ index := by
  have hnone : o.protocols.length ≤ index ↔ o.protocolAt? index = none :=
    List.getElem?_eq_none_iff.symm
  rw [hnone]
  cases hp : o.protocolAt? index with
  | none => exact ⟨fun _ => rfl, fun _ => by rw [createHandshake, hp]⟩
  | some p =>
    refine ⟨fun hnosuch => ?_, nofun⟩
    rw [createHandshake_eq hp] at hnosuch
    split at hnosuch <;> cases hnosuch

end Create

/-- Link options and the handshakes made from them agree on what keys are needed. After any calls on
the options, let a handshake be made for any role and place of the list. There is no such protocol
if and only if the place is outside the list. Else the handshake is made if and only if one with all
keys that the options have would start in that role, with any prologue, and a key is missing if and
only if that start would fail for it; nothing else happens. What is made has not started. It holds
the keys that the protocol needs in the role, with the values that the options have, and no other
key; and it starts. -/
theorem Made.createHandshake_agrees {o : LinkOptions} {past : List Call} (h : Made o past)
    (role : Role) (index : Nat) (prologue : Bytes) :
    (o.createHandshake role index = .error .noSuchProtocol ↔ o.protocols.length ≤ index) ∧
      ∀ p, o.protocolAt? index = some p →
        ∃ full, o.loadAll p = .ok full ∧
          ((∃ made, o.createHandshake role index = .ok made) ↔
            (full.start role prologue).2 = .ok ()) ∧
          (o.createHandshake role index = .error (.handshake .missingKey) ↔
            (full.start role prologue).2 = .error .missingKey) ∧
          ((full.start role prologue).2 = .ok () ∨
            (full.start role prologue).2 = .error .missingKey) ∧
          ∀ made, o.createHandshake role index = .ok made →
            made.protocol = p ∧ made.phase = .initial ∧
              (∀ id, made.hasKey id = (p.needs role).includes id) ∧
              ((p.needs role).localStatic = true → made.slots.localStatic = o.localKeyPair) ∧
              ((p.needs role).remoteStatic = true → made.slots.remoteStatic = o.remotePublic) ∧
              ((p.needs role).psk = true → made.psk = o.psk) ∧
              (made.start role prologue).2 = .ok () := by
  refine ⟨createHandshake_eq_noSuchProtocol_iff, fun p hp => ?_⟩
  have hregistered : p ∈ Protocol.registry := h.wellKept.registered p (List.mem_of_getElem? hp)
  have hstart : ((o.full p).start role prologue).2 =
      if (o.full p).holds (p.needs role) = true then .ok () else .error .missingKey :=
    Handshake.start_answer hregistered rfl role prologue
  have hcreate := createHandshake_eq hp role
  refine ⟨o.full p, Handshake.load_eq _ _ _ _, ?_⟩
  by_cases hholds : (o.full p).holds (p.needs role) = true
  · rw [if_pos hholds] at hstart hcreate
    rw [hstart, hcreate]
    refine ⟨⟨fun _ => rfl, fun _ => ⟨_, rfl⟩⟩, ⟨nofun, nofun⟩, Or.inl rfl, fun made hmade => ?_⟩
    cases hmade
    exact ⟨rfl, rfl, hasKey_needed hholds, filter_of_needed, filter_of_needed, filter_of_needed,
      needed_starts hregistered hholds prologue⟩
  · rw [if_neg hholds] at hstart hcreate
    rw [hstart, hcreate]
    refine ⟨⟨?_, nofun⟩, ⟨fun _ => rfl, fun _ => rfl⟩, Or.inr rfl, fun made hmade => ?_⟩
    · rintro ⟨made, hmade⟩
      cases hmade
    · cases hmade

/-- With a static pair and a pre-shared key, IK can be responded to, without the pre-shared key, but
not be initiated. -/
theorem Made.createHandshake_agrees_ik :
    let pair := KeyPair.ofSecret ⟨Bytes.zeros 32, rfl⟩
    let o := ((new.after (.addProtocol .ikChaChaPolySha256)).after (.setLocalKeyPair pair)).after
      (.setPsk ⟨Bytes.zeros 32, rfl⟩)
    (∃ made, o.createHandshake .responder 0 = .ok made ∧ made.slots.localStatic = some pair ∧
      made.hasKey .presharedKey = false ∧ (made.start .responder [1, 2]).2 = .ok ()) ∧
      ∃ full, o.loadAll .ikChaChaPolySha256 = .ok full ∧
        (full.start .initiator [1, 2]).2 = .error .missingKey := by
  intro pair o
  have hik : (Call.addProtocol .ikChaChaPolySha256).Plain := by rw [Call.Plain]; decide
  have hpair : (Call.setLocalKeyPair pair).Plain := trivial
  have hpsk : (Call.setPsk ⟨Bytes.zeros 32, rfl⟩).Plain := trivial
  have hmade : Made o _ := ((Made.fresh.call hik).call hpair).call hpsk
  have hat : o.protocolAt? 0 = some .ikChaChaPolySha256 := rfl
  constructor
  · obtain ⟨-, hagrees⟩ := hmade.createHandshake_agrees .responder 0 [1, 2]
    obtain ⟨full, -, -, -, -, hok⟩ := hagrees _ hat
    have hcreate : ∃ made, o.createHandshake .responder 0 = .ok made := ⟨_, rfl⟩
    obtain ⟨made, hmade⟩ := hcreate
    obtain ⟨-, -, hkeys, hlocal, -, -, hstarts⟩ := hok made hmade
    exact ⟨made, hmade, hlocal rfl, hkeys .presharedKey, hstarts⟩
  · obtain ⟨-, hagrees⟩ := hmade.createHandshake_agrees .initiator 0 [1, 2]
    obtain ⟨full, hfull, -, hmissing, -⟩ := hagrees _ hat
    exact ⟨full, hfull, hmissing.mp rfl⟩

end LinkOptions

end NoiseChannel
