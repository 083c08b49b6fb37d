import NoiseChannel.Handshake.Protocol

/-!
# Names are read as they are written

A protocol name is cut at its underscores. None of its components holds one, so cutting undoes
joining (`parts_render`), and joining undoes cutting for any text (`intercalate_parts`). Hence a text
is read as a name exactly if it is the written form of that name (`parse_eq_ok_iff`). A registered
protocol is called by the written form of its components (`render_protocolName`), and so it is found
under its own name and under no other.
-/

namespace NoiseChannel

/-- In a list whose members have different keys, the first member with a given key is the only
one. -/
theorem find?_key_eq_some_iff {α κ : Type} [DecidableEq κ] {all : List α} {key : α → κ}
    (hkeys : ∀ a ∈ all, ∀ b ∈ all, key a = key b → a = b) {k : κ} {a : α} :
    (all.find? fun a => key a = k) = some a ↔ a ∈ all ∧ key a = k := by
  constructor
  · intro h
    exact ⟨List.mem_of_find?_eq_some h, by simpa using List.find?_some h⟩
  · rintro ⟨hmem, rfl⟩
    cases hfind : all.find? fun b => key b = key a with
    | none =>
      have hnot := List.find?_eq_none.mp hfind a hmem
      simp at hnot
    | some b =>
      have hkey : key b = key a := by simpa using List.find?_some hfind
      rw [hkeys b (List.mem_of_find?_eq_some hfind) a hmem hkey]

/-! ## Components -/

theorem Pattern.ofName?_eq_some_iff {s : String} {p : Pattern} :
    ofName? s = some p ↔ p.name = s := by
  have hmem : p ∈ all := by cases p <;> decide
  rw [ofName?, find?_key_eq_some_iff (by decide), and_iff_right hmem]

theorem CipherKind.ofName?_eq_some_iff {s : String} {kind : CipherKind} :
    ofName? s = some kind ↔ kind.name = s := by
  have hmem : kind ∈ all := by cases kind <;> decide
  rw [ofName?, find?_key_eq_some_iff (by decide), and_iff_right hmem]

theorem DigestKind.ofName?_eq_some_iff {s : String} {kind : DigestKind} :
    ofName? s = some kind ↔ kind.name = s := by
  have hmem : kind ∈ all := by cases kind <;> decide
  rw [ofName?, find?_key_eq_some_iff (by decide), and_iff_right hmem]

namespace ProtocolName

variable {s : String} {n : ProtocolName}

/-- No component of a name holds an underscore. -/
theorem underscore_not_mem {part : String} (h : part ∈ n.components) : '_' ∉ part.toList := by
  have hpattern : '_' ∉ n.pattern.name.toList := by cases n.pattern <;> decide
  have hcipher : '_' ∉ n.suite.cipher.name.toList := by cases n.suite.cipher <;> decide
  have hdigest : '_' ∉ n.suite.digest.name.toList := by cases n.suite.digest <;> decide
  simp only [components, List.mem_cons, List.not_mem_nil, or_false] at h
  rcases h with rfl | rfl | rfl | rfl | rfl
  · decide
  · exact hpattern
  · decide
  · exact hcipher
  · exact hdigest

theorem parts_render (n : ProtocolName) : parts n.render = n.components := by
  have hnone : ∀ part ∈ n.components.map String.toList, '_' ∉ part := by
    intro part hpart
    obtain ⟨component, hmem, rfl⟩ := List.mem_map.mp hpart
    exact underscore_not_mem hmem
  have hne : n.components.map String.toList ≠ [] := by simp [components]
  have hunderscore : "_".toList = ['_'] := rfl
  rw [parts, render, String.toList_intercalate, hunderscore, List.splitOn_intercalate '_' hnone hne,
    List.map_map]
  have hid : String.ofList ∘ String.toList = id := funext fun _ => String.ofList_toList
  rw [hid, List.map_id]

theorem intercalate_parts (s : String) : String.intercalate "_" (parts s) = s := by
  have hunderscore : "_".toList = ['_'] := rfl
  have hid : String.toList ∘ String.ofList = id := funext fun _ => String.toList_ofList
  rw [← String.toList_inj, String.toList_intercalate, hunderscore, parts, List.map_map, hid,
    List.map_id, List.intercalate_splitOn]

/-- A text is read as the name whose components it is cut into. -/
theorem parse_eq_ok_iff_parts : parse s = .ok n ↔ parts s = n.components := by
  constructor
  · intro h
    rw [parse] at h
    split at h
    · rename_i first pattern third cipher digest hparts
      split at h
      · rename_i hfixed
        split at h
        · rename_i p c d hp hc hd
          cases h
          rw [hparts, hfixed.1, hfixed.2, components, Pattern.ofName?_eq_some_iff.mp hp,
            CipherKind.ofName?_eq_some_iff.mp hc, DigestKind.ofName?_eq_some_iff.mp hd]
        · cases h
      · cases h
    · cases h
  · intro h
    rw [parse, h, components]
    simp only [and_self, if_true, Pattern.ofName?_eq_some_iff.mpr rfl,
      CipherKind.ofName?_eq_some_iff.mpr rfl, DigestKind.ofName?_eq_some_iff.mpr rfl]

/-- A text is read as the name whose written form it is. -/
theorem parse_eq_ok_iff : parse s = .ok n ↔ n.render = s := by
  rw [parse_eq_ok_iff_parts]
  constructor
  · intro h
    rw [render, ← h, intercalate_parts]
  · rintro rfl
    exact parts_render n

theorem parse_error {e : Error} (h : parse s = .error e) : e = .unknownProtocol := by
  rw [parse] at h
  split at h
  · split at h
    · split at h
      · cases h
      · cases h
        rfl
    · cases h
      rfl
  · cases h
    rfl

theorem parse_eq_error_iff :
    parse s = .error .unknownProtocol ↔ ∀ n : ProtocolName, n.render ≠ s := by
  constructor
  · intro h n hn
    rw [parse_eq_ok_iff.mpr hn] at h
    cases h
  · intro h
    cases hparse : parse s with
    | ok n => exact absurd (parse_eq_ok_iff.mp hparse) (h n)
    | error e => rw [parse_error hparse]

theorem render_eq (p : Pattern) (c : CipherKind) (d : DigestKind) :
    render ⟨p, ⟨c, d⟩⟩ = "Noise_" ++ p.name ++ "_25519_" ++ c.name ++ "_" ++ d.name := by
  rw [← String.toList_inj]
  simp [render, components, family, curve]

end ProtocolName

/-! ## Registered protocols -/

namespace Protocol

variable {s : String} {protocol : Protocol}

/-- Registered protocols are told apart by their names. -/
theorem eq_of_name {p q : Protocol} (hp : p ∈ registry) (hq : q ∈ registry)
    (hname : p.name = q.name) : p = q := by
  have hall : ∀ p ∈ registry, ∀ q ∈ registry, p.name = q.name → p = q := by
    decide
  exact hall p hp q hq hname

/-- A registered protocol is called by the written form of its components. -/
theorem render_protocolName (h : protocol ∈ registry) :
    protocol.protocolName.render = protocol.name := by
  have hall : ∀ protocol ∈ registry, protocol.protocolName.render = protocol.name := by
    decide +kernel
  exact hall protocol h

theorem find_eq_ok_iff : find s = .ok protocol ↔ protocol ∈ registry ∧ protocol.name = s := by
  have hkeys : ∀ p ∈ registry, ∀ q ∈ registry, p.protocolName = q.protocolName → p = q := by
    decide
  constructor
  · intro h
    rw [find] at h
    split at h
    · cases h
    · rename_i parsed hparse
      split at h
      · rename_i hfound
        cases h
        obtain ⟨hmem, hparsed⟩ := (find?_key_eq_some_iff hkeys).mp hfound
        refine ⟨hmem, ?_⟩
        rw [← render_protocolName hmem, hparsed]
        exact ProtocolName.parse_eq_ok_iff.mp hparse
      · cases h
  · rintro ⟨hmem, rfl⟩
    have hparse := ProtocolName.parse_eq_ok_iff.mpr (render_protocolName hmem)
    have hfound := (find?_key_eq_some_iff hkeys).mpr ⟨hmem, rfl⟩
    rw [find, hparse]
    simp only [hfound]

theorem find_error {e : Error} (h : find s = .error e) : e = .unknownProtocol := by
  rw [find] at h
  split at h
  · rename_i hparse
    cases h
    exact ProtocolName.parse_error hparse
  · split at h
    · cases h
    · cases h
      rfl

theorem find_eq_error_iff :
    find s = .error .unknownProtocol ↔ ∀ protocol ∈ registry, protocol.name ≠ s := by
  constructor
  · intro h protocol hmem hname
    rw [find_eq_ok_iff.mpr ⟨hmem, hname⟩] at h
    cases h
  · intro h
    cases hfind : find s with
    | ok protocol =>
      obtain ⟨hmem, hname⟩ := find_eq_ok_iff.mp hfind
      exact absurd hname (h protocol hmem)
    | error e => rw [find_error hfind]

end Protocol

/-- Names are read exactly. A text is read as the name of a pattern, a cipher and a digest if it is
that name to the letter; what it is read as is written as the text again, so no two texts are read as
one name and every name is read back; any other text is no name. A text leads to the registered
protocol that is called by it, and to none if no protocol is. -/
theorem names_read_exactly (s : String) :
    (∀ p c d, ProtocolName.parse s = .ok ⟨p, ⟨c, d⟩⟩ ↔
      s = "Noise_" ++ p.name ++ "_25519_" ++ c.name ++ "_" ++ d.name) ∧
    (∀ n, ProtocolName.parse s = .ok n ↔ n.render = s) ∧
    (ProtocolName.parse s = .error .unknownProtocol ↔ ∀ p : Pattern, ∀ c : CipherKind,
      ∀ d : DigestKind, s ≠ "Noise_" ++ p.name ++ "_25519_" ++ c.name ++ "_" ++ d.name) ∧
    (∀ protocol, Protocol.find s = .ok protocol ↔
      protocol ∈ Protocol.registry ∧ protocol.name = s) ∧
    (Protocol.find s = .error .unknownProtocol ↔
      ∀ protocol ∈ Protocol.registry, protocol.name ≠ s) := by
  refine ⟨fun p c d => ?_, fun n => ProtocolName.parse_eq_ok_iff, ?_,
    fun protocol => Protocol.find_eq_ok_iff, Protocol.find_eq_error_iff⟩
  · rw [ProtocolName.parse_eq_ok_iff, ProtocolName.render_eq]
    exact eq_comm
  · rw [ProtocolName.parse_eq_error_iff]
    constructor
    · intro h p c d hs
      exact h ⟨p, ⟨c, d⟩⟩ ((ProtocolName.render_eq p c d).trans hs.symm)
    · rintro h ⟨p, ⟨c, d⟩⟩ hrender
      exact h p c d (hrender.symm.trans (ProtocolName.render_eq p c d))

/-- A suite that is not registered is read all the same, and a blank at the end is not passed over. -/
example : Protocol.find "Noise_XX_25519_AESGCM_BLAKE2s" = .error .unknownProtocol ∧
    ProtocolName.parse "Noise_XX_25519_AESGCM_BLAKE2s" = .ok ⟨.xx, ⟨.aesGcm, .blake2s⟩⟩ ∧
    ProtocolName.parse "Noise_XX_25519_AESGCM_SHA256 " = .error .unknownProtocol :=
  ⟨rfl, rfl, rfl⟩

end NoiseChannel
